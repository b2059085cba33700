import Unstack.Proofs.Dataflow.Balance
import Unstack.Proofs.Dataflow.Progress

namespace Unstack

variable {g g' : Graph} {entry r left : Nat} {outs : List (EdgeId × Edge)}

namespace Frame

/-- A register that still holds its value from the entry is handed back with the value of the call. -/
theorem reg_returnedTo {f entry call : Frame} (length : call.regs.length = f.regs.length)
    (kept : f.reg r = entry.reg r) : (f.returnedTo entry call).reg r = call.reg r := by
  have value : (f.returnedTo entry call).reg r =
      ((f.regs[r]?).map fun value => if value = entry.reg r then call.reg r else value).join := by
    simp only [returnedTo, reg, List.getElem?_mapIdx]
  by_cases inside : r < f.regs.length
  · have here : f.regs[r] = entry.reg r := by
      rw [← kept, reg, List.getElem?_eq_getElem inside, Option.join_some]
    rw [value, List.getElem?_eq_getElem inside, Option.map_some, Option.join_some, if_pos here]
  · have none : call.reg r = none := by rw [reg, List.getElem?_eq_none (by omega), Option.join_none]
    rw [value, List.getElem?_eq_none (by omega), Option.map_none, Option.join_none, none]

end Frame

/-- The subroutine that the operation calls. -/
def Instr.entered? : Instr → Option Nat
  | .enterSub entry => some entry
  | _ => none

/-- No register stands before the first one, so what writes that depends on the operation alone. -/
theorem Instr.writes_zero (instr : Instr) (f f' : Frame) : instr.writes f 0 = instr.writes f' 0 := by
  cases instr <;> simp [writes]

namespace Solver

/-- Executes a block whose first frame is known, without sending anything on. -/
def runBlock (b : BlockId) : Solving Unit := do
  let block ← (← getGraph).block b
  match ← (← getGraph).frameAt block.pc with
  | none => pure ()
  | some entry => do
    let _ ← run b block.ops entry
    pure ()

/-- Where a step leads if it succeeds. -/
def next? (x : Solving Unit) (s : Solver) : Option Solver :=
  match x.run.run s with
  | .ok (.ok (), s') => some s'
  | _ => none

/-- The graphs that visits of blocks go through: before each of them, after the execution of the block, and at the
end. -/
def between : List BlockId → Solver → List Graph
  | [], s => [s.graph]
  | b :: rest, s =>
    s.graph :: (next? (runBlock b) s).toList.map graph ++ (next? (propagate b) s).toList.flatMap (between rest)

/-- The graphs that rounds go through, as long as they report changes. -/
def course : Nat → Solver → List Graph
  | 0, _ => []
  | left + 1, s =>
    between s.graph.reversePostorder ⟨s.graph, false, false⟩ ++
      match round.run.run s with
      | .ok (.ok true, s') => course left s'
      | _ => []

section Between

variable {s s' : Solver} {b : BlockId} {blocks : List BlockId} {u : Unit} {g : Graph}

theorem next?_eq {x : Solving Unit} (run : Runs x s u s') : next? x s = some s' := by
  rw [next?, show x.run.run s = _ from run]

theorem mem_between (blocks : List BlockId) (s : Solver) : s.graph ∈ between blocks s := by
  cases blocks <;> exact .head _

/-- The state after the operations and before the edges is one in between. -/
theorem mem_between_of_runBlock (run : Runs (runBlock b) s u s') : s'.graph ∈ between (b :: blocks) s := by
  rw [between, next?_eq run]
  exact .tail _ (List.mem_append_left _ (List.mem_singleton_self _))

theorem mem_between_cons (run : Runs (propagate b) s u s') (member : g ∈ between blocks s') :
    g ∈ between (b :: blocks) s := by
  rw [between, next?_eq run]
  exact List.mem_append_right _ (by simpa using member)

theorem mem_between_last (run : Runs (blocks.forM propagate) s u s') : s'.graph ∈ between blocks s := by
  induction blocks generalizing s with
  | nil =>
    rw [runs_forM_nil.mp run]
    exact mem_between [] s
  | cons b rest ih =>
    obtain ⟨mid, visit, others⟩ := runs_forM_cons.mp run
    exact mem_between_cons visit (ih others)

theorem mem_course_succ (run : Runs round s true s') (member : g ∈ course left s') : g ∈ course (left + 1) s := by
  rw [course, show round.run.run s = _ from run]
  exact List.mem_append_right _ member

end Between

end Solver

namespace Graph

/-- The frame of the parameters arrives at the start. -/
def enter (g : Graph) : Solving Unit := do
  let frame ← Solver.liftFrame 0 g.info.startFrame
  Solver.arrive (← g.block g.start).pc frame

/-- The graphs that the analysis goes through. -/
def course (g : Graph) (options : Options) : List Graph :=
  (Solver.next? g.enter ⟨g, false, false⟩).toList.flatMap (Solver.course options.maxRounds)

/-- The register never changes its value before an operation, once this is known. -/
def Lasting (g : Graph) (options : Options) (pc r : Nat) : Prop :=
  ∀ mid ∈ g.course options, ∀ f, mid.Holds pc f → ∀ mid' ∈ g.course options, ∀ f', mid'.Holds pc f' → f.reg r = f'.reg r

/-- No operation of the block writes the register, and whenever the block starts, the register is as at the entry of
the subroutine. -/
structure Spares (g : Graph) (options : Options) (entry r : Nat) (block : Block) : Prop where
  untouched : ∀ mid ∈ g.course options, ∀ o ∈ block.ops, ∀ f, mid.Holds o.pc f → o.instr.writes f r = false
  alike : ∀ mid ∈ g.course options, ∀ f, mid.Holds block.pc f → ∀ f', mid.Holds entry f' → f.reg r = f'.reg r

/-- The operation at `c` calls a subroutine, and only returns from this lead behind the call. -/
structure CallsSub (g : Graph) (c entry : Nat) : Prop where
  call : ∃ o ∈ g.ops[c]?, o.instr = .enterSub entry
  returned : ∀ edge ∈ g.edges, edge.removed = false → ∀ next ∈ g.blocks[edge.target]?, next.pc = c + 1 →
    edge.kind = .leaveSub entry

/-- The block has an edge that leads behind the call at `c`. -/
def LeadsBehind (g : Graph) (c : Nat) (b : BlockId) : Prop :=
  ∃ edge ∈ g.edges, edge.removed = false ∧ edge.source = b ∧ ∃ next ∈ g.blocks[edge.target]?, next.pc = c + 1

instance (g : Graph) (pc : Nat) (p : Frame → Prop) [DecidablePred p] : Decidable (∀ f, g.Holds pc f → p f) :=
  decidable_of_iff (∀ f ∈ (g.frames[pc]?).join, p f) (by
    simp only [Option.mem_def, Option.join_eq_some_iff]
    rfl)

instance (g : Graph) (options : Options) (pc r : Nat) : Decidable (g.Lasting options pc r) :=
  inferInstanceAs (Decidable (∀ mid ∈ g.course options, _))

instance (instr : Instr) (entry : Nat) : Decidable (instr = .enterSub entry) :=
  decidable_of_iff (instr.entered? = some entry) (by cases instr <;> simp [Instr.entered?])

instance (g : Graph) (c entry : Nat) : Decidable (g.CallsSub c entry) :=
  decidable_of_iff ((∃ o ∈ g.ops[c]?, o.instr = .enterSub entry) ∧ ∀ edge ∈ g.edges, edge.removed = false →
      ∀ next ∈ g.blocks[edge.target]?, next.pc = c + 1 → edge.kind = .leaveSub entry)
    ⟨fun ⟨call, returned⟩ => ⟨call, returned⟩, fun calls => ⟨calls.call, calls.returned⟩⟩

/-- A block that is the whole subroutine starts as this does. -/
theorem Spares.of_start {options : Options} {block : Block} (start : block.pc = entry)
    (untouched : ∀ mid ∈ g.course options, ∀ o ∈ block.ops, ∀ f, mid.Holds o.pc f → o.instr.writes f r = false) :
    g.Spares options entry r block := by
  refine ⟨untouched, fun mid _ f holds f' holds' => ?_⟩
  rw [start] at holds
  cases holds.symm.trans holds'
  rfl

theorem Continues.leads (continues : Continues g g') {edge : Edge} {next : Block} (member : edge ∈ g.edges)
    (atTarget : g.blocks[edge.target]? = some next) :
    ∃ back next', { edge with back } ∈ g'.edges ∧ g'.blocks[edge.target]? = some next' ∧ next'.pc = next.pc := by
  obtain ⟨e, atEdge⟩ := Array.mem_iff_getElem?.mp member
  obtain ⟨back, atEdge'⟩ := continues.edges e edge atEdge
  obtain ⟨next', atTarget', start, _⟩ := continues.toSameCode.block atTarget
  exact ⟨back, next', Array.mem_of_getElem? atEdge', atTarget', start⟩

theorem Wired.edge_of_listed (wired : g.Wired) {b : BlockId} {block : Block} (found : g.blocks[b]? = some block)
    (leaving : g.outs b = .ok outs) {out : EdgeId × Edge} (member : out ∈ outs) :
    out.2 ∈ g.edges ∧ out.2.removed = false ∧ out.2.source = b := by
  obtain ⟨_, leaving', joins⟩ := wired.leaving found.lt_size
  cases leaving.symm.trans leaving'
  obtain ⟨atEdge, edge, atEdge', used, source, _⟩ := joins out member
  cases atEdge.some_unique atEdge'
  exact ⟨Array.mem_of_getElem? atEdge, used, source⟩

namespace Traces

variable {g : Graph} {ops : List Operation} {f last : Frame} {frames : List Frame}

theorem regs_length (traces : g.Traces ops f frames last) : last.regs.length = f.regs.length := by
  induction traces with
  | nil => rfl
  | cons _ executes _ ih => exact ih.trans (Frame.execute_keeps executes).1

/-- Operations that do not write a register leave its value. -/
theorem reg_eq (traces : g.Traces ops f frames last)
    (untouched : ∀ o ∈ ops, ∀ f, g.Holds o.pc f → o.instr.writes f r = false) : last.reg r = f.reg r := by
  induction traces with
  | nil => rfl
  | cons holds executes _ ih =>
    rw [ih fun o member => untouched o (.tail _ member)]
    exact (Frame.execute_keeps executes).2.2 r (untouched _ (.head _) _ holds)

end Traces

end Graph

namespace Solver

open Unstack.Graph

variable {m : MethodInput} {built : Graph} {s s' : Solver} {b : BlockId} {block : Block} {pc p limit : Nat}
  {frame entryFrame : Frame} {u : Unit} {frames : List Frame}

theorem arrive_elsewhere (different : pc ≠ p) (run : Runs (arrive pc frame) s u s') :
    s'.graph.frames[p]? = s.graph.frames[p]? := by
  obtain ⟨_, rfl⟩ | ⟨_, _, _, _, rfl⟩ := runs_arrive run
  · exact Array.getElem?_setIfInBounds_ne different
  · split
    · rfl
    · exact Array.getElem?_setIfInBounds_ne different

theorem linkReturn_frames {target : BlockId} (run : Runs (linkReturn b target entry) s u s') :
    s'.graph.frames = s.graph.frames := by
  obtain ⟨_, _, _, rfl⟩ | ⟨_, _, _, rfl⟩ := runs_linkReturn run
  · rfl
  · rfl

/-- A return changes the frame behind its call only. -/
theorem returnTo_elsewhere {site : Nat} (different : s.graph.StartsAt p → site + 1 ≠ p)
    (run : Runs (returnTo b pc entry frame entryFrame site) s u s') : s'.graph.frames[p]? = s.graph.frames[p]? := by
  obtain ⟨_, rfl⟩ | ⟨_, _, _, _, after, link, arrival⟩ := runs_returnTo run
  · rfl
  · obtain ⟨next, atTarget, _, start⟩ := eq_some_of_blockAt after
    rw [arrive_elsewhere (fun same => different ⟨next, Array.mem_of_getElem? atTarget, start.trans same⟩ same) arrival,
      linkReturn_frames link]

theorem startsAt_congr (same : SameCode g g') : g'.StartsAt p ↔ g.StartsAt p := by
  have half {g g' : Graph} (same : SameCode g g') (starts : g.StartsAt p) : g'.StartsAt p := by
    obtain ⟨block, member, start⟩ := starts
    obtain ⟨b, found⟩ := Array.mem_iff_getElem?.mp member
    obtain ⟨block', found', start', _⟩ := same.block found
    exact ⟨block', Array.mem_of_getElem? found', start'.trans start⟩
  exact ⟨half same.symm, half same⟩

theorem returns_elsewhere {sites : List Nat} (different : ∀ site ∈ sites, s.graph.StartsAt p → site + 1 ≠ p)
    (run : Runs (sites.forM (returnTo b pc entry frame entryFrame)) s u s') :
    s'.graph.frames[p]? = s.graph.frames[p]? := by
  have kept := forM_keeps (fun mid => SameCode s.graph mid.graph ∧ mid.graph.frames[p]? = s.graph.frames[p]?)
    (fun site member mid next before step =>
      have different' (starts : mid.graph.StartsAt p) := different site member ((startsAt_congr before.1).mp starts)
      ⟨before.1.trans (moves_returnTo step).continues.toSameCode, (returnTo_elsewhere different' step).trans before.2⟩)
    ⟨.refl _, rfl⟩ run
  exact kept.2

/-- Inside blocks, returns replace no frame. -/
theorem step_elsewhere {o : Operation} {next : Frame} (inner : ¬ s.graph.StartsAt p)
    (run : Runs (step b o frame) s next s') : s'.graph.frames[p]? = s.graph.frames[p]? := by
  obtain ⟨_, ⟨_, _, returns⟩ | ⟨_, rfl⟩⟩ := runs_step run
  · obtain ⟨_, rfl⟩ | ⟨_, _, ⟨_, rfl⟩ | ⟨_, _, calls⟩⟩ := runs_returnToCalls returns
    · rfl
    · rfl
    · exact returns_elsewhere (fun _ _ starts => absurd starts inner) calls
  · rfl

/-- An edge changes the frame of its target only. -/
theorem follow_elsewhere {last : Frame} {edge : Edge}
    (different : ∀ next ∈ s.graph.blocks[edge.target]?, next.pc = p → ∃ entry, edge.kind = .leaveSub entry)
    (run : Runs (follow frames last edge) s u s') : s'.graph.frames[p]? = s.graph.frames[p]? := by
  obtain ⟨target, found, ⟨types, kind, catches⟩ | ⟨_, _, rfl⟩ | ⟨_, noReturn, arrival⟩⟩ := runs_follow run
  · have other : target.pc ≠ p := fun same => by
      obtain ⟨entry, returns⟩ := different target found same
      cases kind.symm.trans returns
    exact forM_keeps (fun mid => mid.graph.frames[p]? = s.graph.frames[p]?)
      (fun _ _ _ _ before step => (arrive_elsewhere other (runs_catch step)).trans before) rfl catches
  · rfl
  · refine arrive_elsewhere (fun same => ?_) arrival
    obtain ⟨entry, returns⟩ := different target found same
    exact noReturn entry returns

/-- Unless an edge of the block leads to an operation, nothing is sent there. -/
theorem follows_elsewhere (wired : s.graph.Wired) (found : s.graph.blocks[b]? = some block)
    (leaving : s.graph.outs b = .ok outs) {last : Frame}
    (different : ∀ edge ∈ s.graph.edges, edge.removed = false → edge.source = b →
      ∀ next ∈ s.graph.blocks[edge.target]?, next.pc = p → ∃ entry, edge.kind = .leaveSub entry)
    (run : Runs (outs.forM fun (_, edge) => follow frames last edge) s u s') :
    s'.graph.frames[p]? = s.graph.frames[p]? := by
  have kept := forM_keeps (fun mid => SameCode s.graph mid.graph ∧ mid.graph.frames[p]? = s.graph.frames[p]?)
    (fun out member mid next before step => by
      obtain ⟨inside, used, source⟩ := wired.edge_of_listed found leaving member
      refine ⟨before.1.trans (moves_follow step).continues.toSameCode,
        (follow_elsewhere (fun target atTarget same => ?_) step).trans before.2⟩
      obtain ⟨target', atTarget', start, _⟩ := before.1.symm.block atTarget
      exact different out.2 inside used source target' atTarget' (start.trans same))
    ⟨.refl _, rfl⟩ run
  exact kept.2

theorem hasReturn_of_linkReturn (wired : s.graph.Wired) (found : s.graph.blocks[b]? = some block) {target : BlockId}
    (run : Runs (linkReturn b target entry) s u s') : s'.graph.HasReturn b target entry := by
  obtain ⟨outs, leaving, ⟨out, member, toTarget, kind⟩, rfl⟩ | ⟨_, _, _, rfl⟩ := runs_linkReturn run
  · obtain ⟨inside, used, source⟩ := wired.edge_of_listed found leaving member
    exact ⟨out.2, inside, used, source, toTarget, kind⟩
  · exact hasReturn_linked

/-- Calls are returned to in the order of the code. -/
theorem callSites_ascending (laid : g.Laid m) (entry : Nat) : (callSites g entry).Pairwise (· < ·) := by
  have ascending : g.ops.toList.Pairwise fun o o' => o.pc < o'.pc := by
    refine List.pairwise_iff_getElem.mpr fun i j inside inside' before => ?_
    have first := laid.toNumbered.ops i _ (List.getElem?_eq_getElem inside)
    have second := laid.toNumbered.ops j _ (List.getElem?_eq_getElem inside')
    omega
  have own {o : Operation} {site : Nat} (given : (match o.instr with
      | .enterSub target => if target = entry then some o.pc else none
      | _ => none) = some site) : site = o.pc := by
    split at given
    · split at given <;> cases given
      rfl
    · cases given
  refine List.Pairwise.filterMap _ (fun o o' before site given site' given' => ?_) ascending
  rw [own given, own given']
  exact before

/-- A visit of a block: its operations up to the last one, this one, which may return to calls, and what is sent along
the edges. -/
structure Visit (m : MethodInput) (built : Graph) (params : Frame) (b : BlockId) (block : Block) (s s' : Solver) where
  found : s.graph.blocks[b]? = some block
  front : List Operation
  last : Operation
  whole : block.ops = front ++ [last]
  -- the frames at the start of the block, in it, before its last operation and behind that
  first : Frame
  frames : List Frame
  ready : Frame
  out : Frame
  -- where the last operation is still to be executed, and where nothing is left but to send frames on
  passed : Solver
  returned : Solver
  outs : List (EdgeId × Edge)
  holds : s.graph.Holds block.pc first
  notes : Notes (block.pc + 1) block.stop s passed
  traces : passed.graph.Traces front first frames ready
  steady : Steady m built passed.graph
  stepped : Runs (step b last ready) passed out returned
  ran : Runs (runBlock b) s () returned
  sound : Sound m built params none returned.graph
  leaving : returned.graph.outs b = .ok outs
  follows : Runs (outs.forM fun (_, edge) => follow (frames ++ [ready]) out edge) returned () s'

namespace Visit

variable {params : Frame}

/-- A visit either finds no frame or goes through all of its stages. -/
theorem of_run (ofMethod : built.Built m) (sound : Sound m built params none s.graph) (steady : Steady m built s.graph)
    (reachable : s.graph.Reachable b) (found : s.graph.blocks[b]? = some block) (run : Runs (propagate b) s u s') :
    (s.graph.frames[block.pc]? = some none ∧ s' = s) ∨ Nonempty (Visit m built params b block s s') := by
  have laid := steady.laid ofMethod
  obtain ⟨_, found', ⟨unknown, rfl⟩ | ⟨first, frames, out, returned, outs, holds, run, leaving, follows⟩⟩ := runs_propagate run
  · cases found.some_unique found'
    exact .inl ⟨unknown, rfl⟩
  · cases found.some_unique found'
    obtain ⟨block₀, found₀, start, ops, _⟩ := steady.toSameCode.symm.block found
    obtain ⟨front, last, whole⟩ : ∃ front last, block.ops = front ++ [last] :=
      ⟨_, _, (List.dropLast_append_getLast (laid.segment b block found).1).symm⟩
    have ran : Runs (runBlock b) s () returned := by
      unfold runBlock
      simp only [runs_bind, runs_getGraph, runs_lift, block_eq_ok, frameAt_eq_ok]
      exact ⟨_, _, ⟨rfl, rfl⟩, block, _, ⟨found, rfl⟩, _, _, ⟨rfl, rfl⟩, some first, _, ⟨holds, rfl⟩,
        runs_bind.mpr ⟨_, _, run, runs_pure.mpr ⟨rfl, rfl⟩⟩⟩
    have entered := sound.inside _ first holds
    have within := steady.within _ first holds
    have soundReturned := (run_sound ofMethod found₀ (show block₀.ops = [] ++ block.ops from ops) sound reachable
      ⟨entered.1, fun entry member => .inl (entered.2 entry member)⟩ (fun _ => start ▸ holds) run).1
    rw [whole] at run
    obtain ⟨others, ready, mid, passed, rfl, inner, recorded, stepped⟩ := runs_run_snoc run
    obtain ⟨notes, traces, _⟩ := run_to_last laid found whole holds inner recorded
    have part : ∀ o ∈ front, o ∈ block₀.ops := fun o member => by simp [ops, whole, member]
    obtain ⟨steadyMid, _, within'⟩ := (run_safe ofMethod found₀ part steady within).of_run inner
    have steadyPassed : Steady m built passed.graph :=
      (record_safe ofMethod steadyMid (laid.op_lt found (by simp [whole])) within').of_run recorded
    exact .inr ⟨found, front, last, whole, first, others, ready, out, passed, returned, outs, holds, notes, traces,
      steadyPassed, stepped, ran, soundReturned, leaving, follows⟩

variable (visit : Visit m built params b block s s')

include visit

/-- Edges that do not lead there leave the frame as it is. -/
theorem sent_elsewhere (different : ∀ edge ∈ visit.returned.graph.edges, edge.removed = false → edge.source = b →
      ∀ next ∈ visit.returned.graph.blocks[edge.target]?, next.pc = p → ∃ entry, edge.kind = .leaveSub entry) :
    s'.graph.frames[p]? = visit.returned.graph.frames[p]? := by
  have found : visit.passed.graph.blocks[b]? = some block := by
    rw [visit.notes.graph]
    exact visit.found
  obtain ⟨_, found', _⟩ := (moves_step visit.stepped).continues.toSameCode.block found
  exact follows_elsewhere visit.sound.wired found' visit.leaving different visit.follows

/-- The frame at the start of the block is the one before the visit, and those inside are the ones after the
execution. -/
theorem keeps_reg (laid : s.graph.Laid m)
    (before : ∀ o ∈ block.ops, ∀ f, s.graph.Holds o.pc f → o.instr.writes f r = false)
    (after : ∀ o ∈ block.ops, ∀ f, visit.returned.graph.Holds o.pc f → o.instr.writes f r = false) :
    visit.ready.reg r = visit.first.reg r := by
  refine visit.traces.reg_eq fun o member f holds => ?_
  have inside : o ∈ block.ops := by simp [visit.whole, member]
  by_cases starts : s.graph.StartsAt o.pc
  · exact before o inside f ((visit.notes.elsewhere o.pc (outside_of_startsAt laid visit.found starts)).symm.trans holds)
  · have inner : ¬ visit.passed.graph.StartsAt o.pc := by rwa [visit.notes.graph]
    exact after o inside f ((step_elsewhere inner visit.stepped).trans holds)

end Visit

theorem rounds_continues (ofMethod : built.Built m) (steady : Steady m built s.graph)
    (run : Runs (rounds limit left) s u s') : Continues s.graph s'.graph := by
  induction left generalizing s with
  | zero => exact absurd run runs_throw
  | succ left ih =>
    obtain ⟨changed, mid, first, run⟩ := runs_bind.mp run
    obtain ⟨swept, sweep, _, toMid, _⟩ := round_sweep ofMethod steady first
    have toSwept : Continues s.graph swept.graph := (moves_forM (fun _ _ _ => moves_propagate) sweep).continues
    refine (toSwept.trans toMid).trans ?_
    cases changed with
    | true => exact ih ((round_safe ofMethod steady).of_run first) run
    | false =>
      obtain ⟨_, rfl⟩ := runs_pure.mp run
      exact .refl _

/-- The register has the value in what is known behind the call. -/
def Returned (c r : Nat) (value : Option SymValue) (g : Graph) : Prop := ∀ f, g.Holds (c + 1) f → f.reg r = value

/-- On its way, the analysis has the value in the register before the call, and the blocks that return behind it do not
change the register. -/
structure Spared (final : Graph) (c entry r : Nat) (value : Option SymValue) (g : Graph) : Prop where
  untouched (b : BlockId) (block : Block) : final.LeadsBehind c b → final.blocks[b]? = some block →
    ∀ o ∈ block.ops, ∀ f, g.Holds o.pc f → o.instr.writes f r = false
  alike (b : BlockId) (block : Block) : final.LeadsBehind c b → final.blocks[b]? = some block →
    ∀ f, g.Holds block.pc f → ∀ f', g.Holds entry f' → f.reg r = f'.reg r
  settled (f : Frame) : g.Holds c f → f.reg r = value

section Returns

variable {params : Frame} {final : Graph} {c entry r : Nat} {value : Option SymValue}

theorem Returned.congr (returned : Returned c r value g) (same : g'.frames[c + 1]? = g.frames[c + 1]?) :
    Returned c r value g' := by
  intro f holds
  unfold Graph.Holds at holds
  rw [same] at holds
  exact returned f holds

/-- A frame with the same value keeps the value after a merge. -/
theorem arrive_returned (returned : Returned c r value s.graph) (same : frame.reg r = value)
    (run : Runs (arrive (c + 1) frame) s u s') : Returned c r value s'.graph := by
  have stores {known : Option Frame} (found : s.graph.frames[c + 1]? = some known) {f : Frame} (same : f.reg r = value) :
      Returned c r value (s.stored (c + 1) f).graph := by
    intro f' holds
    have inside := found.lt_size
    have here : f' = f := by simpa using (withFrame_holds inside f).mp holds
    rw [here, same]
  obtain ⟨missing, rfl⟩ | ⟨old, merged, holds, merge, rfl⟩ := runs_arrive run
  · exact stores missing same
  · split
    · exact returned
    · refine stores holds ?_
      rw [Frame.reg_merge merge, returned old holds, same, Frame.mergeReg_self]

variable (ofMethod : built.Built m) (calls : final.CallsSub c entry)

include ofMethod calls

/-- By induction on the calls that are left. At the call at `c` the new edge tells where the return comes from; as the
calls ascend, the frame before it does not change any more. -/
theorem returns_returned (found : built.blocks[b]? = some block) {sub : Nat} {sites : List Nat}
    (ascending : sites.Pairwise (· < ·)) (inside : ∀ site ∈ sites, site < m.ops.length)
    (steady : Steady m built s.graph) (run : Runs (sites.forM (returnTo b pc sub frame entryFrame)) s u s')
    (continues : Continues s'.graph final)
    (kept : final.LeadsBehind c b → sub = entry → frame.reg r = entryFrame.reg r ∧
      ∀ call, s'.graph.Holds c call → call.reg r = value ∧ call.regs.length = frame.regs.length)
    (returned : Returned c r value s.graph) : Returned c r value s'.graph := by
  induction sites generalizing s with
  | nil =>
    rw [runs_forM_nil.mp run]
    exact returned
  | cons site rest ih =>
    obtain ⟨mid, first, others⟩ := runs_forM_cons.mp run
    obtain ⟨later, ascending'⟩ := List.pairwise_cons.mp ascending
    have steady' := (returnTo_safe ofMethod steady found (inside site (.head _))).of_run first
    refine ih ascending' (fun site member => inside site (.tail _ member)) steady' others ?_
    by_cases here : site = c
    · subst here
      obtain ⟨_, rfl⟩ | ⟨call, target, linked, atSite, after, link, arrival⟩ := runs_returnTo first
      · exact returned
      · obtain ⟨next, atTarget, _, start⟩ := eq_some_of_blockAt after
        have onward := (moves_arrive arrival).trans (moves_forM (fun _ _ _ => moves_returnTo) others)
        have toEnd := onward.continues.trans continues
        obtain ⟨_, found', _⟩ := steady.toSameCode.block found
        obtain ⟨edge, member, used, source, toTarget, kind⟩ :=
          toEnd.hasReturn (hasReturn_of_linkReturn steady.wired found' link)
        obtain ⟨next', atTarget', start', _⟩ := ((moves_linkReturn link).continues.trans toEnd).toSameCode.block atTarget
        rw [← toTarget] at atTarget'
        have kind' := calls.returned edge member used next' atTarget' (start'.trans start)
        obtain ⟨kept, values⟩ := kept ⟨edge, member, used, source, next', atTarget', start'.trans start⟩
          (EdgeKind.leaveSub.inj (kind.symm.trans kind'))
        have unmoved : s'.graph.frames[site]? = s.graph.frames[site]? := by
          rw [returns_elsewhere (fun other member _ => by have := later other member; omega) others,
            arrive_elsewhere (by omega) arrival, linkReturn_frames link]
        obtain ⟨before, length⟩ := values call (unmoved.trans atSite)
        refine arrive_returned (returned.congr (by rw [linkReturn_frames link])) ?_ arrival
        rw [Frame.reg_returnedTo length kept, before]
    · exact returned.congr (returnTo_elsewhere (fun _ same => here (by omega)) first)

omit ofMethod in
theorem leads_behind (continues : Continues g final) :
    ∀ edge ∈ g.edges, edge.removed = false → edge.source = b → ∀ next ∈ g.blocks[edge.target]?, next.pc = c + 1 →
      ∃ entry, edge.kind = .leaveSub entry := by
  intro edge member used _ next atTarget start
  obtain ⟨back, next', member', atTarget', start'⟩ := continues.leads member atTarget
  exact ⟨entry, calls.returned { edge with back } member' used next' atTarget' (start'.trans start)⟩

omit ofMethod in
/-- No block goes on behind a call. -/
theorem behind_call (laid : g.Laid m) (continues : Continues g final) (found : g.blocks[b]? = some block) :
    c + 1 < block.pc + 1 ∨ block.stop ≤ c + 1 := by
  by_contra inner
  obtain ⟨o, listed, enters⟩ := calls.call
  rw [continues.ops, laid.ops] at listed
  have inside : c - block.pc < block.ops.dropLast.length := by
    rw [List.length_dropLast]
    unfold Block.stop at inner
    omega
  have atIndex := List.getElem?_eq_getElem (show c - block.pc < block.ops.length by
    rw [List.length_dropLast] at inside; omega)
  have numbered := laid.op_numbered found atIndex
  rw [show block.pc + (c - block.pc) = c by omega] at numbered
  have same : block.ops.dropLast[c - block.pc] = o := by
    rw [List.getElem_dropLast]
    exact numbered.some_unique (by simpa using listed)
  have flows := laid.flows_inside found (List.getElem_mem inside)
  rw [same, enters] at flows
  cases flows

omit ofMethod in
theorem startsAt_entry (laid : g.Laid m) (continues : Continues g final) : g.StartsAt entry := by
  obtain ⟨o, listed, enters⟩ := calls.call
  rw [continues.ops, laid.ops] at listed
  obtain ⟨b, block, found, start⟩ := laid.entry_starts (show m.numbered[c]? = some o by simpa using listed) enters
  exact ⟨block, Array.mem_of_getElem? found, start⟩

/-- A visit gets behind the call only by a return. The register is then the same at the return, at the start of the
block and at the entry, so that the value before the call arrives. -/
theorem propagate_returned (sound : Sound m built params none s.graph) (steady : Steady m built s.graph)
    (reachable : s.graph.Reachable b) (run : Runs (propagate b) s u s') (continues : Continues s'.graph final)
    (before : Spared final c entry r value s.graph)
    (after : ∀ mid, Runs (runBlock b) s () mid → Spared final c entry r value mid.graph)
    (returned : Returned c r value s.graph) : Returned c r value s'.graph := by
  have laid := steady.laid ofMethod
  have toEnd := (moves_propagate run).continues.trans continues
  obtain ⟨block, found, _⟩ := sound.live ofMethod reachable
  obtain ⟨block₀, found₀, _⟩ := sound.toSameCode.symm.block found
  obtain ⟨block', found', start, ops, _⟩ := toEnd.toSameCode.block found
  obtain ⟨_, rfl⟩ | ⟨⟨visit⟩⟩ := Visit.of_run ofMethod sound steady reachable found run
  · exact returned
  · have ran := after _ visit.ran
    have fromReturned := (moves_forM (fun _ _ _ => moves_follow) visit.follows).continues.trans continues
    refine Returned.congr ?_ (visit.sent_elsewhere (leads_behind calls fromReturned))
    have passed := returned.congr (visit.notes.elsewhere (c + 1) (behind_call calls laid toEnd found))
    obtain ⟨_, ⟨reg, _, returns⟩ | ⟨_, same⟩⟩ := runs_step visit.stepped
    · obtain ⟨_, same⟩ | ⟨sub, _, ⟨_, same⟩ | ⟨entryFrame, atEntry, loop⟩⟩ := runs_returnToCalls returns
      · rwa [same]
      · rwa [same]
      · have laid' := visit.steady.laid ofMethod
        refine returns_returned ofMethod calls found₀ (callSites_ascending laid' sub) (fun site => callSite_lt laid')
          visit.steady loop fromReturned (fun leads isEntry => ?_) passed
        subst isEntry
        have atEntry' : s.graph.Holds sub entryFrame :=
          (visit.notes.elsewhere sub (outside_of_startsAt laid found (startsAt_entry calls laid toEnd))).symm.trans atEntry
        refine ⟨?_, fun call atCall => ⟨ran.settled call atCall, ?_⟩⟩
        · rw [visit.keeps_reg laid (ops ▸ before.untouched b block' leads found')
            (ops ▸ ran.untouched b block' leads found')]
          exact before.alike b block' leads found' _ (start ▸ visit.holds) _ atEntry'
        · rw [visit.traces.regs_length, (sound.inside _ _ visit.holds).1]
          exact (visit.sound.inside c call atCall).1
    · rwa [same]

/-- By induction on the blocks of a round. -/
theorem sweep_returned {blocks : List BlockId} (sound : Sound m built params none s.graph)
    (steady : Steady m built s.graph) (reachable : ∀ b ∈ blocks, s.graph.Reachable b)
    (run : Runs (blocks.forM propagate) s u s') (continues : Continues s'.graph final)
    (spared : ∀ mid ∈ between blocks s, Spared final c entry r value mid) (returned : Returned c r value s.graph) :
    Returned c r value s'.graph := by
  induction blocks generalizing s with
  | nil =>
    rw [runs_forM_nil.mp run]
    exact returned
  | cons b rest ih =>
    obtain ⟨mid, visit, others⟩ := runs_forM_cons.mp run
    have here := reachable b (.head _)
    have toMid := (moves_propagate visit).continues
    have fromMid := (moves_forM (fun _ _ _ => moves_propagate) others).continues.trans continues
    obtain ⟨_, found, _⟩ := sound.live ofMethod here
    obtain ⟨_, found₀, _⟩ := sound.toSameCode.symm.block found
    refine ih (propagate_sound ofMethod sound here visit) ((propagate_safe ofMethod steady found₀).of_run visit)
      (fun b member => toMid.reachable (reachable b (.tail _ member))) others
      (fun g member => spared g (mem_between_cons visit member)) ?_
    exact propagate_returned ofMethod calls sound steady here visit fromMid (spared _ (mem_between _ s))
      (fun _ ran => spared _ (mem_between_of_runBlock ran)) returned

/-- By induction on the rounds. -/
theorem rounds_returned (sound : Sound m built params none s.graph) (listed : s.graph.Listed)
    (run : Runs (rounds limit left) s u s') (continues : Continues s'.graph final)
    (spared : ∀ mid ∈ course left s, Spared final c entry r value mid) (returned : Returned c r value s.graph) :
    Returned c r value s'.graph := by
  induction left generalizing s with
  | zero => exact absurd run runs_throw
  | succ left ih =>
    obtain ⟨changed, mid, first, run⟩ := runs_bind.mp run
    have ⟨sound', listed', _⟩ := round_sound ofMethod sound listed first
    have steady := sound.steady ofMethod listed
    obtain ⟨swept, sweep, _, toMid, frames, _⟩ := round_sweep ofMethod steady first
    have reachable : ∀ b ∈ s.graph.reversePostorder, s.graph.Reachable b :=
      fun b member => (listed b).mp (List.mem_reverse.mp member)
    have fromSwept : Continues swept.graph final := by
      refine toMid.trans (Continues.trans ?_ continues)
      cases changed with
      | true => exact rounds_continues ofMethod (sound'.steady ofMethod listed') run
      | false =>
        obtain ⟨_, rfl⟩ := runs_pure.mp run
        exact .refl _
    have returned' : Returned c r value mid.graph := by
      refine Returned.congr (g := swept.graph) ?_ (by rw [frames])
      exact sweep_returned ofMethod calls (by exact sound) (by exact steady) (by exact reachable) sweep fromSwept
        (fun g member => spared g (List.mem_append_left _ member)) (by exact returned)
    cases changed with
    | true => exact ih sound' listed' run (fun g member => spared g (mem_course_succ first member)) returned'
    | false =>
      obtain ⟨_, rfl⟩ := runs_pure.mp run
      exact returned'

end Returns

theorem mem_course_last (ofMethod : built.Built m) (steady : Steady m built s.graph)
    (run : Runs (rounds limit left) s u s') : ∃ mid ∈ course left s, mid.frames = s'.graph.frames := by
  induction left generalizing s with
  | zero => exact absurd run runs_throw
  | succ left ih =>
    obtain ⟨changed, mid, first, run⟩ := runs_bind.mp run
    cases changed with
    | true =>
      obtain ⟨g, member, frames⟩ := ih ((round_safe ofMethod steady).of_run first) run
      exact ⟨g, mem_course_succ first member, frames⟩
    | false =>
      obtain ⟨_, rfl⟩ := runs_pure.mp run
      obtain ⟨swept, sweep, _, _, frames, _⟩ := round_sweep ofMethod steady first
      exact ⟨swept.graph, List.mem_append_left _ (mem_between_last sweep), frames.symm⟩

end Solver

namespace Graph

section Counted

variable {m : MethodInput} {g : Graph} {o : Operation}

/-- Counting values does not change what an operation writes. -/
theorem counted_writes (listed : g.ops[o.pc]? = some o) (f : Frame) (r : Nat) :
    (g.counted o).instr.writes f r = o.instr.writes f r := by
  rcases counted_eq listed with same | ⟨f', form, _, other, same⟩
  · rw [same]
  · rw [same]
    unfold Instr.onValues? at other
    split at other
    · rename_i instr
      split at other <;> cases other
      rw [instr]
      rfl
    · rename_i instr
      split at other <;> cases other
      rw [instr]
      rfl
    · cases other

theorem callsSub_of_countValues (laid : g.Laid m) {c : Nat} (calls : g.countValues.CallsSub c entry) :
    g.CallsSub c entry := by
  refine ⟨?_, fun edge member used next atTarget => ?_⟩
  · obtain ⟨o', listed', enters⟩ := calls.call
    rw [countValues_eq laid] at listed'
    simp only [given, Array.getElem?_map] at listed'
    obtain ⟨o, listed, rfl⟩ := Option.map_eq_some_iff.mp listed'
    have pc := laid.toNumbered.ops c o (by rwa [Array.getElem?_toList])
    rw [Nat.zero_add] at pc
    exact ⟨o, listed, instr_of_counted (pc ▸ listed) enters (by simp) (by simp)⟩
  · have member' : edge ∈ g.countValues.edges := by rwa [countValues_eq laid]
    exact calls.returned edge member' used (g.countedBlock next) ((countValues_block laid).mpr ⟨next, atTarget, rfl⟩)

theorem leadsBehind_countValues (laid : g.Laid m) {c : Nat} {b : BlockId} (leads : g.LeadsBehind c b) :
    g.countValues.LeadsBehind c b := by
  obtain ⟨edge, member, used, source, next, atTarget, start⟩ := leads
  have member' : edge ∈ g.countValues.edges := by rwa [countValues_eq laid]
  exact ⟨edge, member', used, source, g.countedBlock next, (countValues_block laid).mpr ⟨next, atTarget, rfl⟩, start⟩

end Counted

theorem enter_runs {params : Frame} {first : Block} {s : Solver} (started : g.info.startFrame = .ok params)
    (found : g.blocks[g.start]? = some first)
    (arrival : Solver.Runs (Solver.arrive first.pc params) ⟨g, false, false⟩ () s) :
    Solver.Runs g.enter ⟨g, false, false⟩ () s := by
  unfold enter
  simp only [Solver.runs_bind, Solver.runs_liftFrame, Solver.runs_lift, block_eq_ok]
  exact ⟨params, _, ⟨started, rfl⟩, first, _, ⟨found, rfl⟩, arrival⟩

theorem course_eq (options : Options) {params : Frame} {first : Block} {s : Solver}
    (started : g.info.startFrame = .ok params) (found : g.blocks[g.start]? = some first)
    (arrival : Solver.Runs (Solver.arrive first.pc params) ⟨g, false, false⟩ () s) :
    g.course options = Solver.course options.maxRounds s := by
  rw [course, Solver.next?_eq (enter_runs started found arrival)]
  simp

/-- A call of a subroutine gets its own registers back, whatever other calls bring. The blocks that return behind the
call must not write the register and must start with it as the subroutine does, which one that is the whole subroutine
always does; and the value before the call must not have changed since it was first known. -/
theorem solve_keeps_register {m : MethodInput} {g g' : Graph} {options : Options} {c entry r : Nat} {before after : Frame}
    (run : (Graph.ofMethod m).run = .ok (.ok g)) (solved : g.solve options = .ok (.ok (), g'))
    (calls : g'.CallsSub c entry)
    (spares : ∀ b block, g'.LeadsBehind c b → g'.blocks[b]? = some block → g.Spares options entry r block)
    (lasting : g.Lasting options c r) (atCall : g'.Holds c before) (behind : g'.Holds (c + 1) after) :
    after.reg r = before.reg r := by
  have ofMethod := (ofMethod_yields m).of_run run
  obtain ⟨params, first, s, last, started, found, arrival, arrived, rounds, rfl⟩ := ofMethod.solve_runs solved
  have course := course_eq options (by rwa [ofMethod.info]) found arrival
  have sound := (Sound.initial ofMethod started).2
  rw [← arrived] at sound
  have listed : s.graph.Listed := by
    rw [arrived]
    exact ofMethod.listed
  have steady := sound.steady ofMethod listed
  have laid := ofMethod.toLaid.congr (steady.toSameCode.trans (Solver.rounds_continues ofMethod steady rounds).toSameCode)
  obtain ⟨ending, memberLast, frames⟩ := Solver.mem_course_last ofMethod steady rounds
  rw [← course] at memberLast
  have endsAt : ending.Holds c before := by
    rw [Holds, frames]
    rwa [countValues_eq laid] at atCall
  have spared : ∀ mid ∈ Solver.course options.maxRounds s, Solver.Spared last.graph c entry r (before.reg r) mid := by
    intro mid member
    rw [← course] at member
    have spares (b block) (leads : last.graph.LeadsBehind c b) (found : last.graph.blocks[b]? = some block) :
        g.Spares options entry r (last.graph.countedBlock block) :=
      spares b _ (leadsBehind_countValues laid leads) ((countValues_block laid).mpr ⟨block, found, rfl⟩)
    refine ⟨fun b block leads found o inside f holds => ?_,
      fun b block leads found => (spares b block leads found).alike mid member,
      fun f holds => lasting mid member f holds ending memberLast before endsAt⟩
    rw [← counted_writes (laid.op_listed found inside)]
    exact (spares b block leads found).untouched mid member _ (List.mem_map_of_mem inside) f (by rwa [counted_pc])
  have initially : Solver.Returned c r (before.reg r) s.graph := by
    intro f holds
    rw [arrived, Holds, withFrame, Array.getElem?_setIfInBounds_ne (by omega), ofMethod.frames,
      Array.getElem?_replicate] at holds
    split at holds <;> cases holds
  rw [countValues_eq laid] at behind
  exact Solver.rounds_returned ofMethod (callsSub_of_countValues laid calls) sound listed rounds (.refl _) spared initially
    after behind

/-- Two calls of one subroutine, with an integer and with a text in register 2. The subroutine writes register 0. -/
def twoCalls : MethodInput where
  info := MethodInfo.plain "twoCalls" 4 2
  ops := [⟨0, 0, -1, .push .int (.int 1)⟩, ⟨0, 0, -1, .store .int 2⟩, ⟨0, 0, -1, .enterSub 7⟩,
    ⟨0, 0, -1, .push .string (.string "s")⟩, ⟨0, 0, -1, .store .string 2⟩, ⟨0, 0, -1, .enterSub 7⟩,
    ⟨0, 0, -1, .leave .void⟩, ⟨0, 0, -1, .store .returnAddress 3⟩, ⟨0, 0, -1, .push .int (.int 2)⟩,
    ⟨0, 0, -1, .store .int 0⟩, ⟨0, 0, -1, .leaveSub 3⟩]
  exceptions := []

theorem solve_keeps_register_twoCalls : ∃ g g' before after other, (Graph.ofMethod twoCalls).run = .ok (.ok g) ∧
    g.solve {} = .ok (.ok (), g') ∧ g'.CallsSub 2 7 ∧
    (∀ b block, g'.LeadsBehind 2 b → g'.blocks[b]? = some block → g.Spares {} 7 2 block) ∧ g.Lasting {} 2 2 ∧
    g'.Holds 2 before ∧ g'.Holds 3 after ∧ g'.Holds 5 other ∧ other.reg 2 ≠ before.reg 2 ∧
    after.reg 2 = before.reg 2 := by
  have facts : (Graph.ofMethod twoCalls).result?.any fun g => (solved? twoCalls {}).any fun g' =>
      g'.CallsSub 2 7 ∧ g.Lasting {} 2 2 ∧ g'.Known 2 ∧ g'.Known 3 ∧ g'.Known 5 ∧
      (∀ f, g'.Holds 2 f → ∀ f', g'.Holds 5 f' → f'.reg 2 ≠ f.reg 2) ∧
      ∀ edge ∈ g'.edges, edge.removed = false → ∀ next ∈ g'.blocks[edge.target]?, next.pc = 3 →
        ∀ block ∈ g'.blocks[edge.source]?, block.pc = 7 ∧
          ∀ mid ∈ g.course {}, ∀ o ∈ block.ops, ∀ f, mid.Holds o.pc f → o.instr.writes f 2 = false := by
    decide +kernel
  obtain ⟨g, g', run, solved⟩ := solves_of_isSome (show (solved? twoCalls {}).isSome by decide +kernel)
  have built : (Graph.ofMethod twoCalls).result? = some g := by simp [Building.result?, run]
  have given : solved? twoCalls {} = some g' := by simp [solved?, built, solved]
  rw [built, given, Option.any_some, Option.any_some] at facts
  obtain ⟨calls, lasting, ⟨before, atCall⟩, ⟨after, behind⟩, ⟨other, atOther⟩, different, returns⟩ :=
    of_decide_eq_true facts
  have spares (b block) (leads : g'.LeadsBehind 2 b) (found : g'.blocks[b]? = some block) : g.Spares {} 7 2 block := by
    obtain ⟨edge, member, used, rfl, next, atTarget, start⟩ := leads
    obtain ⟨start', untouched⟩ := returns edge member used next atTarget start block found
    exact .of_start start' untouched
  exact ⟨g, g', before, after, other, run, solved, calls, spares, lasting, atCall, behind, atOther,
    different before atCall other atOther, solve_keeps_register run solved calls spares lasting atCall behind⟩

/-- Two calls of a subroutine of two blocks, each with another value in register 0, which the subroutine does not
write. -/
def splitSub : MethodInput where
  info := MethodInfo.plain "splitSub" 2 2
  ops := [⟨0, 0, -1, .push .int (.int 1)⟩, ⟨0, 0, -1, .store .int 0⟩, ⟨0, 0, -1, .enterSub 7⟩,
    ⟨0, 0, -1, .push .int (.int 2)⟩, ⟨0, 0, -1, .store .int 0⟩, ⟨0, 0, -1, .enterSub 7⟩, ⟨0, 0, -1, .leave .void⟩,
    ⟨0, 0, -1, .store .returnAddress 1⟩, ⟨0, 0, -1, .goto 9⟩, ⟨0, 0, -1, .leaveSub 1⟩]
  exceptions := []

/-- The blocks of a subroutine merge what the calls bring, each for itself. So at the return the register differs from
the one at the entry although no operation writes it, and the call does not get its own value back. -/
theorem solve_loses_register : ∃ g g' before after, (Graph.ofMethod splitSub).run = .ok (.ok g) ∧
    g.solve {} = .ok (.ok (), g') ∧ g'.CallsSub 2 7 ∧ (∀ o ∈ g'.ops, 7 ≤ o.pc → ∀ f, o.instr.writes f 0 = false) ∧
    g'.Holds 2 before ∧ g'.Holds 3 after ∧ after.reg 0 ≠ before.reg 0 := by
  have facts : (solved? splitSub {}).any fun g' => g'.CallsSub 2 7 ∧ g'.Known 2 ∧ g'.Known 3 ∧
      (∀ o ∈ g'.ops, 7 ≤ o.pc → o.instr.writes (.empty 0 0) 0 = false) ∧
      ∀ f, g'.Holds 2 f → ∀ f', g'.Holds 3 f' → f'.reg 0 ≠ f.reg 0 := by
    decide +kernel
  obtain ⟨g, g', run, solved⟩ := solves_of_isSome (show (solved? splitSub {}).isSome by decide +kernel)
  have given : solved? splitSub {} = some g' := by simp [solved?, Building.result?, run, solved]
  rw [given, Option.any_some] at facts
  obtain ⟨calls, ⟨before, atCall⟩, ⟨after, behind⟩, untouched, different⟩ := of_decide_eq_true facts
  refine ⟨g, g', before, after, run, solved, calls, fun o member inside f => ?_, atCall, behind,
    different before atCall after behind⟩
  rw [Instr.writes_zero]
  exact untouched o member inside

/-- One block is not enough if the value before the call changes, as it does in a loop around the call. -/
example : (solved? ⟨MethodInfo.plain "loop" 2 2, [⟨0, 0, -1, .push .int (.int 1)⟩, ⟨0, 0, -1, .store .int 0⟩,
      ⟨0, 0, -1, .enterSub 7⟩, ⟨0, 0, -1, .inc .int 0 1⟩, ⟨0, 0, -1, .load .int 0⟩, ⟨0, 0, -1, .jumpZero .int .ne 2⟩,
      ⟨0, 0, -1, .leave .void⟩, ⟨0, 0, -1, .store .returnAddress 1⟩, ⟨0, 0, -1, .leaveSub 1⟩], []⟩ {}).any fun g' =>
    g'.CallsSub 2 7 ∧ ∀ f, g'.Holds 2 f → ∀ f', g'.Holds 3 f' → f'.reg 0 ≠ f.reg 0 := by decide +kernel

end Graph

end Unstack
