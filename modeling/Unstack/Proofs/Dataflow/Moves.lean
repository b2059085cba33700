import Mathlib.Logic.Relation
import Unstack.Proofs.Frame.Effect
import Unstack.Proofs.Graph.Exit

namespace Unstack

/-- The frame before an operation is known to be `f`. -/
def Graph.Holds (g : Graph) (pc : Nat) (f : Frame) : Prop := g.frames[pc]? = some (some f)

/-- The graph with the frame before an operation replaced. -/
def Graph.withFrame (g : Graph) (pc : Nat) (f : Frame) : Graph :=
  { g with frames := g.frames.setIfInBounds pc (some f) }

namespace Solver

variable {entry : Nat} {entryFrame : Frame} {ops : List Operation}

/-- A step of the analysis that succeeds, with its result and the states before and after it. -/
def Runs {α : Type} (x : Solving α) (s : Solver) (a : α) (s' : Solver) : Prop := x.run.run s = .ok (.ok a, s')

section Inversion

variable {α β : Type} {s s' s'' : Solver} {u : Unit}

/-- A sequence runs through a state in the middle. -/
theorem runs_bind {x : Solving α} {next : α → Solving β} {b : β} :
    Runs (x >>= next) s b s'' ↔ ∃ a s', Runs x s a s' ∧ Runs (next a) s' b s'' := by
  unfold Runs
  rw [ExceptT.run_bind, StateT.run_bind, bind_eq_ok]
  constructor
  · rintro ⟨⟨outcome, mid⟩, first, second⟩
    cases outcome with
    | error e => cases second
    | ok a => exact ⟨a, mid, first, second⟩
  · rintro ⟨a, mid, first, second⟩
    exact ⟨(.ok a, mid), first, second⟩

theorem runs_pure {a b : α} : Runs (pure a) s b s' ↔ b = a ∧ s' = s := by
  unfold Runs
  rw [ExceptT.run_pure, StateT.run_pure]
  simp [pure, Except.pure, eq_comm]

theorem runs_throw {e : AnalysisError} {a : α} : ¬ Runs (throw e) s a s' := by
  intro run
  cases run

theorem runs_lift {x : Checked α} {a : α} : Runs (liftM x : Solving α) s a s' ↔ x = .ok a ∧ s' = s := by
  cases x with
  | error fault => exact ⟨fun run => (nomatch run), fun ⟨run, _⟩ => (nomatch run)⟩
  | ok b =>
    change (Except.ok (Except.ok b, s) : Except Fault (Except AnalysisError α × Solver)) = .ok (.ok a, s') ↔ _
    simp [eq_comm]

theorem runs_get {a : Solver} : Runs get s a s' ↔ a = s ∧ s' = s := by
  change (Except.ok (Except.ok s, s) : Except Fault (Except AnalysisError Solver × Solver)) = .ok (.ok a, s') ↔ _
  simp [eq_comm]

theorem runs_modify {change : Solver → Solver} : Runs (modify change) s u s' ↔ s' = change s := by
  change (Except.ok (Except.ok (), change s) : Except Fault (Except AnalysisError Unit × Solver)) = .ok (.ok u, s') ↔ _
  simp [eq_comm]

theorem runs_set {new : Solver} : Runs (set new) s u s' ↔ s' = new := by
  change (Except.ok (Except.ok (), new) : Except Fault (Except AnalysisError Unit × Solver)) = .ok (.ok u, s') ↔ _
  simp [eq_comm]

theorem runs_getGraph {g : Graph} : Runs getGraph s g s' ↔ g = s.graph ∧ s' = s := by
  unfold getGraph
  simp only [runs_bind, runs_get, runs_pure]
  constructor
  · rintro ⟨_, _, ⟨rfl, rfl⟩, rfl, rfl⟩
    exact ⟨rfl, rfl⟩
  · rintro ⟨rfl, rfl⟩
    exact ⟨_, _, ⟨rfl, rfl⟩, rfl, rfl⟩

theorem runs_liftFrame {pc : Nat} {x : Except FrameError α} {a : α} :
    Runs (liftFrame pc x) s a s' ↔ x = .ok a ∧ s' = s := by
  cases x with
  | error e => exact ⟨fun run => absurd run runs_throw, fun ⟨run, _⟩ => (nomatch run)⟩
  | ok b => exact runs_pure.trans (and_congr_left' ⟨fun same => by rw [same], fun same => (Except.ok.inj same).symm⟩)

theorem runs_forM_nil {body : α → Solving Unit} : Runs (List.forM [] body) s u s' ↔ s' = s :=
  runs_pure.trans (by simp)

theorem runs_forM_cons {item : α} {rest : List α} {body : α → Solving Unit} :
    Runs ((item :: rest).forM body) s u s' ↔ ∃ mid, Runs (body item) s () mid ∧ Runs (rest.forM body) mid () s' := by
  change Runs (body item >>= fun _ => rest.forM body) s u s' ↔ _
  rw [runs_bind]
  exact ⟨fun ⟨_, mid, first, others⟩ => ⟨mid, first, others⟩, fun ⟨mid, first, others⟩ => ⟨(), mid, first, others⟩⟩

theorem forM_keeps (holds : Solver → Prop) {items : List α} {body : α → Solving Unit}
    (each : ∀ item ∈ items, ∀ s s', holds s → Runs (body item) s () s' → holds s') (initial : holds s)
    (run : Runs (items.forM body) s u s') : holds s' := by
  induction items generalizing s with
  | nil =>
    rw [runs_forM_nil.mp run]
    exact initial
  | cons item rest ih =>
    obtain ⟨mid, first, others⟩ := runs_forM_cons.mp run
    exact ih (fun item member => each item (.tail _ member))
      (each item (.head _) s mid initial first) others

end Inversion

def stored (s : Solver) (pc : Nat) (frame : Frame) : Solver :=
  { s with graph := s.graph.withFrame pc frame, framesChanged := true }

def linked (s : Solver) (b target : BlockId) (entry : Nat) : Solver :=
  { s with graph := s.graph.withEdge b target (.leaveSub entry), edgesChanged := true }

inductive Move (s : Solver) : Solver → Prop where
  | store (pc : Nat) (frame : Frame) : pc < s.graph.frames.size → Move s (s.stored pc frame)
  | link (b target : BlockId) (entry : Nat) : b < s.graph.blocks.size → target < s.graph.blocks.size →
    Move s (s.linked b target entry)

def Moves : Solver → Solver → Prop := Relation.ReflTransGen Move

section Steps

variable {s s' : Solver} {u : Unit} {frame last : Frame} {b : BlockId} {pc : Nat} {frames : List Frame}
  {o : Operation}

theorem runs_store : Runs (store pc frame) s u s' ↔ pc < s.graph.frames.size ∧ s' = s.stored pc frame := by
  unfold store Graph.setFrame
  simp only [runs_bind, runs_getGraph, runs_lift, runs_modify]
  constructor
  · rintro ⟨_, _, ⟨rfl, rfl⟩, graph, _, ⟨set, rfl⟩, rfl⟩
    split at set <;> cases set
    exact ⟨‹_›, rfl⟩
  · rintro ⟨inside, rfl⟩
    exact ⟨_, _, ⟨rfl, rfl⟩, _, _, ⟨if_pos inside, rfl⟩, rfl⟩

theorem frameAt_eq_ok {g : Graph} {frame : Option Frame} : g.frameAt pc = .ok frame ↔ g.frames[pc]? = some frame := by
  unfold Graph.frameAt
  cases g.frames[pc]? <;> simp

/-- A frame arrives where none is known, or it is merged with the one that is. -/
theorem runs_arrive (run : Runs (arrive pc frame) s u s') :
    (s.graph.frames[pc]? = some none ∧ s' = s.stored pc frame) ∨
      ∃ old merged, s.graph.Holds pc old ∧ old.merge frame pc = .ok merged ∧
        s' = if merged = old then s else s.stored pc merged := by
  unfold arrive at run
  simp only [runs_bind, runs_getGraph, runs_lift, frameAt_eq_ok] at run
  obtain ⟨_, _, ⟨rfl, rfl⟩, known, _, ⟨found, rfl⟩, run⟩ := run
  cases known with
  | none => exact .inl ⟨found, (runs_store.mp run).2⟩
  | some old =>
    simp only [runs_bind, runs_liftFrame] at run
    obtain ⟨merged, _, ⟨merge, rfl⟩, run⟩ := run
    refine .inr ⟨old, merged, found, merge, ?_⟩
    split at run
    · rw [if_pos ‹_›]
      exact (runs_pure.mp run).2
    · rw [if_neg ‹_›]
      exact (runs_store.mp run).2

/-- A frame that is held already is not stored again. -/
theorem runs_record (run : Runs (record pc frame) s u s') :
    (s.graph.Holds pc frame ∧ s' = s) ∨ (¬ s.graph.Holds pc frame ∧ pc < s.graph.frames.size ∧ s' = s.stored pc frame) := by
  unfold record at run
  simp only [runs_bind, runs_getGraph, runs_lift, frameAt_eq_ok] at run
  obtain ⟨_, _, ⟨rfl, rfl⟩, known, _, ⟨found, rfl⟩, run⟩ := run
  unfold Graph.Holds
  rw [found]
  split at run
  · rename_i same
    exact .inl ⟨by rw [same], (runs_pure.mp run).2⟩
  · rename_i other
    exact .inr ⟨fun same => other (Option.some.inj same), runs_store.mp run⟩

/-- An edge back is added only if it is not there. -/
theorem runs_linkReturn {target : BlockId} (run : Runs (linkReturn b target entry) s u s') :
    (∃ outs, s.graph.outs b = .ok outs ∧ (∃ out ∈ outs, out.2.target = target ∧ out.2.kind = .leaveSub entry) ∧ s' = s) ∨
      (b < s.graph.blocks.size ∧ target < s.graph.blocks.size ∧
        (∃ outs, s.graph.outs b = .ok outs ∧ ∀ out ∈ outs, ¬ (out.2.target = target ∧ out.2.kind = .leaveSub entry)) ∧
        s' = s.linked b target entry) := by
  unfold linkReturn at run
  simp only [runs_bind, runs_getGraph, runs_lift] at run
  obtain ⟨_, _, ⟨rfl, rfl⟩, outs, _, ⟨leaving, rfl⟩, run⟩ := run
  split at run
  · rename_i exists_
    obtain ⟨out, member, test⟩ := List.any_eq_true.mp exists_
    simp only [Bool.and_eq_true, beq_iff_eq] at test
    exact .inl ⟨outs, leaving, ⟨out, member, test⟩, (runs_pure.mp run).2⟩
  · rename_i fresh
    simp only [runs_bind, runs_lift, runs_modify] at run
    obtain ⟨⟨e, graph⟩, _, ⟨added, rfl⟩, rfl⟩ := run
    obtain ⟨sourceInside, targetInside⟩ := Graph.lt_of_addEdge added
    rw [Graph.addEdge_eq _ sourceInside targetInside] at added
    cases added
    refine .inr ⟨sourceInside, targetInside, ⟨outs, leaving, fun out member same => fresh ?_⟩, rfl⟩
    exact List.any_eq_true.mpr ⟨out, member, by simp [same]⟩

/-- A step that gets to the call returns to its successor and sends it the frame. -/
theorem runs_returnTo {site : Nat} (run : Runs (returnTo b pc entry frame entryFrame site) s u s') :
    (s.graph.frames[site]? = some none ∧ s' = s) ∨
      ∃ call target mid, s.graph.Holds site call ∧ s.graph.blockAt? (site + 1) = some target ∧
        Runs (linkReturn b target entry) s () mid ∧ Runs (arrive (site + 1) (frame.returnedTo entryFrame call)) mid u s' := by
  unfold returnTo at run
  simp only [runs_bind, runs_getGraph, runs_lift, frameAt_eq_ok] at run
  obtain ⟨_, _, ⟨rfl, rfl⟩, known, _, ⟨found, rfl⟩, run⟩ := run
  cases known with
  | none => exact .inl ⟨found, (runs_pure.mp run).2⟩
  | some call =>
    simp only at run
    split at run
    · exact absurd run runs_throw
    · obtain ⟨_, mid, link, run⟩ := runs_bind.mp run
      exact .inr ⟨call, _, mid, found, ‹_›, link, run⟩

theorem runs_returnToCalls (run : Runs (returnToCalls b pc frame) s u s') : (frame.subs = [] ∧ s' = s) ∨
      ∃ entry, frame.subs.getLast? = some entry ∧
        ((s.graph.frames[entry]? = some none ∧ s' = s) ∨
          ∃ entryFrame, s.graph.Holds entry entryFrame ∧
            Runs ((callSites s.graph entry).forM (returnTo b pc entry frame entryFrame)) s u s') := by
  unfold returnToCalls at run
  split at run
  · rename_i empty
    exact .inl ⟨List.getLast?_eq_none_iff.mp empty, (runs_pure.mp run).2⟩
  · rename_i entry innermost
    refine .inr ⟨entry, innermost, ?_⟩
    simp only [runs_bind, runs_getGraph, runs_lift, frameAt_eq_ok] at run
    obtain ⟨_, _, ⟨rfl, rfl⟩, known, _, ⟨found, rfl⟩, run⟩ := run
    cases known with
    | none => exact .inl ⟨found, (runs_pure.mp run).2⟩
    | some entryFrame => exact .inr ⟨entryFrame, found, run⟩

/-- An operation acts on its frame; only the end of a subroutine touches the solver. -/
theorem runs_step {after : Frame} (run : Runs (step b o frame) s after s') : frame.execute o.pc o.instr = .ok after ∧
      ((∃ reg, o.instr = .leaveSub reg ∧ Runs (returnToCalls b o.pc frame) s () s') ∨
        ((∀ reg, o.instr ≠ .leaveSub reg) ∧ s' = s)) := by
  unfold step at run
  simp only [runs_bind, runs_liftFrame] at run
  obtain ⟨_, _, ⟨executes, rfl⟩, run⟩ := run
  split at run
  · obtain ⟨_, _, returned, run⟩ := runs_bind.mp run
    obtain ⟨rfl, rfl⟩ := runs_pure.mp run
    exact ⟨executes, .inl ⟨_, ‹_›, returned⟩⟩
  · rename_i other
    obtain ⟨rfl, rfl⟩ := runs_pure.mp run
    exact ⟨executes, .inr ⟨other, rfl⟩⟩

theorem runs_run_cons {rest : List Operation} (run : Runs (Solver.run b (o :: rest) frame) s (frames, last) s') :
    ∃ first second next others, frames = frame :: others ∧ Runs (record o.pc frame) s () first ∧
      Runs (step b o frame) first next second ∧ Runs (Solver.run b rest next) second (others, last) s' := by
  unfold Solver.run at run
  simp only [runs_bind] at run
  obtain ⟨_, first, recorded, next, second, stepped, ⟨others, _⟩, _, run, result⟩ := run
  obtain ⟨same, rfl⟩ := runs_pure.mp result
  cases same
  exact ⟨first, second, next, others, rfl, recorded, stepped, run⟩

theorem runs_run_nil (run : Runs (Solver.run b [] frame) s (frames, last) s') : frames = [] ∧ last = frame ∧ s' = s := by
  obtain ⟨same, rfl⟩ := runs_pure.mp run
  cases same
  exact ⟨rfl, rfl, rfl⟩

theorem runs_run_snoc (run : Runs (Solver.run b (ops ++ [o]) frame) s (frames, last) s') :
    ∃ others f mid mid', frames = others ++ [f] ∧ Runs (Solver.run b ops frame) s (others, f) mid ∧
      Runs (record o.pc f) mid () mid' ∧ Runs (step b o f) mid' last s' := by
  induction ops generalizing s frame frames with
  | nil =>
    obtain ⟨first, second, next, others, rfl, recorded, stepped, run⟩ := runs_run_cons run
    obtain ⟨rfl, rfl, rfl⟩ := runs_run_nil run
    exact ⟨[], frame, s, first, rfl, runs_pure.mpr ⟨rfl, rfl⟩, recorded, stepped⟩
  | cons o' rest ih =>
    obtain ⟨first, second, next, others, rfl, recorded, stepped, run⟩ := runs_run_cons run
    obtain ⟨inner, f, mid, mid', rfl, front, recorded', stepped'⟩ := ih run
    refine ⟨frame :: inner, f, mid, mid', rfl, ?_, recorded', stepped'⟩
    unfold Solver.run
    simp only [runs_bind]
    exact ⟨(), first, recorded, next, second, stepped, (inner, f), mid, front, runs_pure.mpr ⟨rfl, rfl⟩⟩

/-- A handler gets the registers of the operation and the exception alone on the stack. -/
theorem runs_catch {t : JavaType} (run : Runs (do arrive pc (← liftFrame pc (handlerFrame pc t frame))) s u s') :
    Runs (arrive pc { frame with stack := [⟨pc, frame.regs.length, t, .defined⟩] }) s u s' := by
  obtain ⟨thrown, _, lifted, arrival⟩ := runs_bind.mp run
  obtain ⟨handled, rfl⟩ := runs_liftFrame.mp lifted
  rwa [← handlerFrame_eq handled]

theorem runs_follow {edge : Edge} (run : Runs (follow frames last edge) s u s') :
    ∃ target, s.graph.blocks[edge.target]? = some target ∧
      ((∃ types, edge.kind = .handler types ∧ Runs (frames.forM fun frame => do
          arrive target.pc (← liftFrame target.pc (handlerFrame target.pc (caughtType types) frame))) s u s') ∨
        (∃ entry, edge.kind = .leaveSub entry ∧ s' = s) ∨
        (edge.kind.isHandler = false ∧ (∀ entry, edge.kind ≠ .leaveSub entry) ∧
          Runs (arrive target.pc last) s u s')) := by
  unfold follow at run
  simp only [runs_bind, runs_getGraph, runs_lift, Graph.block_eq_ok] at run
  obtain ⟨_, _, ⟨rfl, rfl⟩, target, _, ⟨found, rfl⟩, run⟩ := run
  refine ⟨target, found, ?_⟩
  cases kind : edge.kind with
  | handler types =>
    rw [kind] at run
    exact .inl ⟨types, rfl, run⟩
  | leaveSub entry =>
    rw [kind] at run
    exact .inr (.inl ⟨entry, rfl, (runs_pure.mp run).2⟩)
  | _ =>
    rw [kind] at run
    exact .inr (.inr ⟨rfl, nofun, run⟩)

/-- A block without a frame is skipped. -/
theorem runs_propagate (run : Runs (propagate b) s u s') : ∃ block, s.graph.blocks[b]? = some block ∧
      ((s.graph.frames[block.pc]? = some none ∧ s' = s) ∨
        ∃ entry frames last mid outs, s.graph.Holds block.pc entry ∧
          Runs (Solver.run b block.ops entry) s (frames, last) mid ∧ mid.graph.outs b = .ok outs ∧
          Runs (outs.forM fun (_, edge) => follow frames last edge) mid u s') := by
  unfold propagate at run
  simp only [runs_bind, runs_getGraph, runs_lift, Graph.block_eq_ok, frameAt_eq_ok] at run
  obtain ⟨_, _, ⟨rfl, rfl⟩, block, _, ⟨found, rfl⟩, known, _, ⟨first, rfl⟩, run⟩ := run
  refine ⟨block, found, ?_⟩
  cases known with
  | none => exact .inl ⟨first, (runs_pure.mp run).2⟩
  | some entry =>
    simp only [runs_bind, runs_getGraph, runs_lift] at run
    obtain ⟨⟨frames, last⟩, mid, run, _, _, ⟨rfl, rfl⟩, outs, _, ⟨leaving, rfl⟩, rest⟩ := run
    exact .inr ⟨entry, frames, last, _, outs, first, run, leaving, rest⟩

/-- A round visits the blocks in the order of its start, and a new edge makes it number the blocks again. -/
theorem runs_round {changed : Bool} (run : Runs round s changed s') :
    ∃ mid, Runs (s.graph.reversePostorder.forM propagate) ⟨s.graph, false, false⟩ () mid ∧
      changed = (mid.framesChanged || mid.edgesChanged) ∧
      if mid.edgesChanged then ∃ graph, mid.graph.renumber = .ok graph ∧ s' = { mid with graph } else s' = mid := by
  unfold round at run
  simp only [runs_bind, runs_modify, runs_getGraph, runs_get] at run
  obtain ⟨_, _, rfl, _, _, ⟨rfl, rfl⟩, _, mid, sweep, _, _, ⟨rfl, rfl⟩, run⟩ := run
  refine ⟨_, sweep, ?_⟩
  split at run
  · simp only [runs_bind, runs_lift, runs_set] at run
    obtain ⟨graph, _, ⟨numbered, rfl⟩, _, _, rfl, run⟩ := run
    obtain ⟨rfl, rfl⟩ := runs_pure.mp run
    rw [if_pos ‹_›]
    exact ⟨rfl, graph, numbered, rfl⟩
  · obtain ⟨rfl, rfl⟩ := runs_pure.mp run
    rw [if_neg ‹_›]
    exact ⟨rfl, rfl⟩

end Steps

namespace Moves

variable {s s' s'' : Solver}

theorem refl (s : Solver) : Moves s s := Relation.ReflTransGen.refl

theorem trans (first : Moves s s') (second : Moves s' s'') : Moves s s'' := Relation.ReflTransGen.trans first second

theorem of_move (move : Move s s') : Moves s s' := .single move

/-- What has changed in a round stays changed. -/
theorem flags (moves : Moves s s') :
    (s.framesChanged → s'.framesChanged) ∧ (s.edgesChanged → s'.edgesChanged) := by
  induction moves with
  | refl => exact ⟨id, id⟩
  | tail _ move ih =>
    cases move with
    | store => exact ⟨fun _ => rfl, ih.2⟩
    | link => exact ⟨ih.1, fun _ => rfl⟩

/-- Without a new edge only frames have changed. -/
theorem frames_only (moves : Moves s s') (noEdge : s'.edgesChanged = false) :
    s'.graph = { s.graph with frames := s'.graph.frames } := by
  induction moves with
  | refl => rfl
  | tail _ move ih =>
    cases move with
    | store pc frame =>
      have before := ih noEdge
      rw [stored, Graph.withFrame, before]
    | link => cases noEdge

end Moves

/-- Nothing has changed in this round. -/
def Still (s : Solver) : Prop := s.framesChanged = false ∧ s.edgesChanged = false

/-- No flag was set, so nothing was changed. -/
theorem Moves.eq_of_still {s s' : Solver} (moves : Moves s s') (still : s'.Still) : s' = s := by
  cases moves with
  | refl => rfl
  | tail _ move =>
    cases move with
    | store => cases still.1
    | link => cases still.2

/-- A run that ends where it starts without having changed anything was there all the time. -/
theorem Moves.between {s mid : Solver} (first : Moves s mid) (second : Moves mid s) (still : s.Still) : mid = s := by
  refine first.eq_of_still ⟨?_, ?_⟩
  · exact Bool.eq_false_iff.mpr fun changed => Bool.eq_false_iff.mp still.1 (second.flags.1 changed)
  · exact Bool.eq_false_iff.mpr fun changed => Bool.eq_false_iff.mp still.2 (second.flags.2 changed)

section Makes

variable {α : Type} {s s' : Solver} {u : Unit} {frame : Frame} {b : BlockId} {pc : Nat} {frames : List Frame}

theorem moves_forM {items : List α} {body : α → Solving Unit}
    (each : ∀ item s s', Runs (body item) s () s' → Moves s s') (run : Runs (items.forM body) s u s') : Moves s s' :=
  forM_keeps (Moves s) (fun item _ mid next before step => before.trans (each item mid next step)) (.refl s) run

theorem moves_arrive (run : Runs (arrive pc frame) s u s') : Moves s s' := by
  have stores {pc : Nat} {known : Option Frame} {frame : Frame} (found : s.graph.frames[pc]? = some known) :
      Moves s (s.stored pc frame) := .of_move (.store pc frame found.lt_size)
  obtain ⟨found, rfl⟩ | ⟨old, merged, found, _, rfl⟩ := runs_arrive run
  · exact stores found
  · split
    · exact .refl s
    · exact stores found

theorem moves_record (run : Runs (record pc frame) s u s') : Moves s s' := by
  obtain ⟨_, rfl⟩ | ⟨_, inside, rfl⟩ := runs_record run
  · exact .refl s'
  · exact .of_move (.store pc frame inside)

theorem moves_linkReturn {target : BlockId} (run : Runs (linkReturn b target entry) s u s') : Moves s s' := by
  obtain ⟨_, _, _, rfl⟩ | ⟨sourceInside, targetInside, _, rfl⟩ := runs_linkReturn run
  · exact .refl s'
  · exact .of_move (.link b target entry sourceInside targetInside)

theorem moves_returnTo {site : Nat} (run : Runs (returnTo b pc entry frame entryFrame site) s u s') : Moves s s' := by
  obtain ⟨_, rfl⟩ | ⟨_, _, _, _, _, link, arrival⟩ := runs_returnTo run
  · exact .refl s'
  · exact (moves_linkReturn link).trans (moves_arrive arrival)

theorem moves_returnToCalls (run : Runs (returnToCalls b pc frame) s u s') : Moves s s' := by
  obtain ⟨_, rfl⟩ | ⟨_, _, ⟨_, rfl⟩ | ⟨_, _, calls⟩⟩ := runs_returnToCalls run
  · exact .refl s'
  · exact .refl s'
  · exact moves_forM (fun _ _ _ => moves_returnTo) calls

theorem moves_step {o : Operation} {after : Frame} (run : Runs (step b o frame) s after s') : Moves s s' := by
  obtain ⟨_, ⟨_, _, returns⟩ | ⟨_, rfl⟩⟩ := runs_step run
  · exact moves_returnToCalls returns
  · exact .refl s'

/-- By induction on the operations. -/
theorem moves_run {last : Frame} (run : Runs (Solver.run b ops frame) s (frames, last) s') : Moves s s' := by
  induction ops generalizing s frame frames with
  | nil =>
    obtain ⟨_, _, rfl⟩ := runs_run_nil run
    exact .refl s'
  | cons o rest ih =>
    obtain ⟨_, _, _, _, _, recorded, stepped, others⟩ := runs_run_cons run
    exact (moves_record recorded).trans ((moves_step stepped).trans (ih others))

theorem moves_follow {last : Frame} {edge : Edge} (run : Runs (follow frames last edge) s u s') : Moves s s' := by
  obtain ⟨_, _, ⟨_, _, catches⟩ | ⟨_, _, rfl⟩ | ⟨_, _, arrival⟩⟩ := runs_follow run
  · exact moves_forM (fun _ _ _ step => moves_arrive (runs_catch step)) catches
  · exact .refl s'
  · exact moves_arrive arrival

theorem moves_propagate (run : Runs (propagate b) s u s') : Moves s s' := by
  obtain ⟨_, _, ⟨_, rfl⟩ | ⟨_, _, _, _, _, _, run, _, follows⟩⟩ := runs_propagate run
  · exact .refl s'
  · exact (moves_run run).trans (moves_forM (fun _ _ _ => moves_follow) follows)

end Makes

end Solver

end Unstack
