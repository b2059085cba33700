import Unstack.Proofs.Build.Partition
import Unstack.Proofs.Dataflow.Moves

namespace Unstack

variable {e : EdgeId} {block : Block} {edge : Edge}

namespace Graph

variable {g : Graph} {pc : Nat} {f : Frame} {m : MethodInput} {b : BlockId}

def Known (g : Graph) (pc : Nat) : Prop := ∃ f, g.Holds pc f

/-- The frame before an operation is known, and it does not change when `f` arrives there. -/
def Absorbs (g : Graph) (pc : Nat) (f : Frame) : Prop := ∃ old, g.Holds pc old ∧ old.merge f pc = .ok old

theorem Absorbs.known (absorbs : g.Absorbs pc f) : g.Known pc := by
  obtain ⟨old, holds, _⟩ := absorbs
  exact ⟨old, holds⟩

/-- The operation is in a block that can be reached. -/
def Visits (g : Graph) (pc : Nat) : Prop :=
  ∃ b block, g.Reachable b ∧ g.blocks[b]? = some block ∧ block.pc ≤ pc ∧ pc < block.stop

/-- What the analysis may do to a graph: it finds frames and adds edges for returns from subroutines. -/
structure Continues (g g' : Graph) : Prop extends SameCode g g' where
  start : g'.start = g.start
  size : g'.frames.size = g.frames.size
  known (pc : Nat) : g.Known pc → g'.Known pc
  edges (e : EdgeId) (edge : Edge) : g.edges[e]? = some edge → ∃ back, g'.edges[e]? = some { edge with back }
  added (e : EdgeId) (edge : Edge) : g'.edges[e]? = some edge →
    (∃ entry, edge.kind = .leaveSub entry) ∨ ∃ back, g.edges[e]? = some { edge with back }

namespace Continues

variable {g g' g'' : Graph}

theorem refl (g : Graph) : Continues g g :=
  ⟨.refl g, rfl, rfl, fun _ => id, fun _ edge found => ⟨edge.back, found⟩, fun _ edge found => .inr ⟨edge.back, found⟩⟩

theorem trans (first : Continues g g') (second : Continues g' g'') : Continues g g'' where
  toSameCode := first.toSameCode.trans second.toSameCode
  start := second.start.trans first.start
  size := second.size.trans first.size
  known pc known := second.known pc (first.known pc known)
  edges e edge found := by
    obtain ⟨back, found'⟩ := first.edges e edge found
    exact second.edges e { edge with back } found'
  added e edge found := by
    rcases second.added e edge found with returns | ⟨back, found'⟩
    · exact .inl returns
    · exact first.added e { edge with back } found'

theorem joins (continues : Continues g g') {c : BlockId} (joins : g.Joins e b c) : g'.Joins e b c := by
  obtain ⟨edge, found, used, source, target⟩ := joins
  obtain ⟨back, found'⟩ := continues.edges e edge found
  exact ⟨_, found', used, source, target⟩

/-- Edges are only added, so what was reachable stays so. -/
theorem reachable (continues : Continues g g') (reachable : g.Reachable b) : g'.Reachable b := by
  unfold Reachable
  rw [continues.start]
  refine Relation.ReflTransGen.mono (fun b c step => ?_) _ _ reachable
  obtain ⟨e, joins⟩ := step
  exact ⟨e, continues.joins joins⟩

theorem visits (continues : Continues g g') (visits : g.Visits pc) : g'.Visits pc := by
  obtain ⟨b, block, reachable, found, lower, upper⟩ := visits
  obtain ⟨block', found', start, ops, _⟩ := continues.block found
  refine ⟨b, block', continues.reachable reachable, found', ?_⟩
  unfold Block.stop at upper ⊢
  rw [start, ops]
  exact ⟨lower, upper⟩

theorem withEdge (g : Graph) (b target : BlockId) (entry : Nat) : Continues g (g.withEdge b target (.leaveSub entry)) where
  toSameCode := .withEdge ..
  start := rfl
  size := rfl
  known _ := id
  edges e edge found := by
    have other : e ≠ g.edges.size := Nat.ne_of_lt found.lt_size
    exact ⟨edge.back, by rw [withEdge_edge, if_neg other, found]⟩
  added e edge found := by
    rw [withEdge_edge] at found
    split at found
    · cases found
      exact .inl ⟨entry, rfl⟩
    · exact .inr ⟨edge.back, found⟩

end Continues

theorem withFrame_holds (inside : pc < g.frames.size) (f : Frame) {p : Nat} {f' : Frame} :
    (g.withFrame pc f).Holds p f' ↔ if pc = p then f' = f else g.Holds p f' := by
  unfold Holds withFrame
  rw [Array.getElem?_setIfInBounds]
  by_cases here : pc = p
  · simp [here, here ▸ inside, eq_comm]
  · simp [here]

/-- A new frame touches no block and no edge. -/
theorem Continues.withFrame (inside : pc < g.frames.size) (f : Frame) : Continues g (g.withFrame pc f) where
  toSameCode := ⟨rfl, rfl, fun _ => rfl⟩
  start := rfl
  size := Array.size_setIfInBounds
  known p known := by
    obtain ⟨old, holds⟩ := known
    by_cases here : pc = p
    · exact ⟨f, (withFrame_holds inside f).mpr (by rw [if_pos here])⟩
    · exact ⟨old, (withFrame_holds inside f).mpr (by rwa [if_neg here])⟩
  edges _ edge found := ⟨edge.back, found⟩
  added _ edge found := .inr ⟨edge.back, found⟩

theorem Renumbered.continues {g' : Graph} (numbered : Renumbered g g') : Continues g g' where
  toSameCode := numbered.sameBodies.toSameCode
  start := numbered.start
  size := by rw [numbered.sameBodies.frames]
  known pc known := by
    unfold Known Holds
    rw [numbered.sameBodies.frames]
    exact known
  edges e edge found := by
    obtain ⟨back, found'⟩ := numbered.edges e
    exact ⟨back, by rw [found', found]; rfl⟩
  added e edge found := by
    obtain ⟨back, found'⟩ := numbered.edges e
    rw [found] at found'
    obtain ⟨edge', old, rfl⟩ := Option.map_eq_some_iff.mp found'.symm
    exact .inr ⟨edge'.back, old⟩

theorem eq_some_of_blockAt (found : g.blockAt? pc = some b) :
    ∃ block, g.blocks[b]? = some block ∧ block.removed = false ∧ block.pc = pc := by
  obtain ⟨⟨_, block⟩, chosen, rfl⟩ := Option.map_eq_some_iff.mp found
  have listed := mem_live.mp (List.mem_of_find?_eq_some chosen)
  exact ⟨block, listed.1, listed.2, by simpa using List.find?_some chosen⟩

/-- An edge of a new graph leads where the last operation of its block does, or to a handler. -/
theorem Built.mem_exits (ofMethod : g.Built m) {target : Block} {o : Operation} (found : g.blocks[b]? = some block)
    (atEnd : block.ops.getLast? = some o) (atEdge : g.edges[e]? = some edge) (used : edge.removed = false)
    (source : edge.source = b) (flow : edge.kind.isHandler = false) (atTarget : g.blocks[edge.target]? = some target) :
    (edge.kind, target.pc) ∈ o.exits := by
  rw [← ofMethod.flows b block o found atEnd]
  refine List.mem_filterMap.mpr ⟨e, (ofMethod.wired.mem_outs b e).mpr ⟨edge.target, edge, atEdge, used, source, rfl⟩, ?_⟩
  rw [exitOf_eq edge target atEdge atTarget]
  simp [flow]

/-- Edges back from a subroutine are no part of the method's own flow. -/
theorem no_return_mem_exits {o : Operation} {exit : EdgeKind × Nat} (member : exit ∈ o.exits) (entry : Nat) :
    exit.1 ≠ .leaveSub entry := by
  unfold Operation.exits at member
  cases leaving : o.leaving with
  | none =>
    rw [leaving] at member
    cases member
  | some link =>
    rw [leaving] at member
    cases link with
    | sequence | enterSub =>
      rw [List.mem_singleton.mp member]
      intro same
      cases same
    | cond target next =>
      simp only [Option.map_some, Option.getD_some, Link.exits] at member
      split at member <;> simp only [List.mem_cons, List.not_mem_nil, or_false] at member <;>
        rcases member with rfl | rfl <;> intro same <;> cases same
    | switch cases =>
      obtain ⟨_, _, rfl⟩ := List.mem_map.mp member
      intro same
      cases same

/-- The frame has the registers of the method, and its subroutines have been entered. -/
def Entered (m : MethodInput) (g : Graph) (f : Frame) : Prop :=
  f.regs.length = m.info.regs ∧ ∀ entry ∈ f.subs, g.Known entry

theorem Entered.continues {g' : Graph} (entered : g.Entered m f)
    (continues : Continues g g') : g'.Entered m f :=
  ⟨entered.1, fun entry member => continues.known entry (entered.2 entry member)⟩

theorem Entered.withStack (entered : g.Entered m f) (stack : List SymValue) : g.Entered m { f with stack } := entered

/-- A frame that may arrive at an operation. The only subroutine that need not have been entered before is one
that the frame enters there. -/
def Fits (m : MethodInput) (g : Graph) (pc : Nat) (f : Frame) : Prop :=
  f.regs.length = m.info.regs ∧ ∀ entry ∈ f.subs, g.Known entry ∨ entry = pc

theorem Entered.fits (entered : g.Entered m f) (pc : Nat) : g.Fits m pc f :=
  ⟨entered.1, fun entry member => .inl (entered.2 entry member)⟩

/-- What holds of a graph while its frames are computed. Known frames have the registers of the method and are in
subroutines that were entered; they belong to blocks that can be reached; the frame at the start is at least that
of the parameters; and a return leads to an operation with a known frame, except for one that is `due`. -/
structure Sound (m : MethodInput) (built : Graph) (params : Frame) (due : Option Nat) (g : Graph) : Prop
    extends Continues built g where
  wired : g.Wired
  inside (pc : Nat) (f : Frame) : g.Holds pc f → g.Entered m f
  visited (pc : Nat) : g.Known pc → g.Visits pc
  entered : g.Absorbs 0 params
  landed (e : EdgeId) (edge : Edge) (target : Block) (entry : Nat) : g.edges[e]? = some edge → edge.removed = false →
    edge.kind = .leaveSub entry → g.blocks[edge.target]? = some target → g.Known target.pc ∨ due = some target.pc

namespace Sound

variable {m : MethodInput} {built g g' : Graph} {params f : Frame} {due : Option Nat} {pc : Nat}

theorem live (sound : Sound m built params due g) (ofMethod : built.Built m) (reachable : g.Reachable b) :
    g.Live b := by
  cases reachable with
  | refl =>
    obtain ⟨block, found, _⟩ := ofMethod.start
    have live : built.Live built.start := ⟨block, found, (ofMethod.segment _ block found).2.2⟩
    exact sound.start ▸ sound.toSameCode.live live
  | tail _ step =>
    obtain ⟨e, joins⟩ := step
    exact (sound.wired.ends_live e _ b joins).2

/-- Before the first round only the start holds a frame. -/
theorem initial (ofMethod : built.Built m) (params : m.info.startFrame = .ok f) :
    0 < built.frames.size ∧ Sound m built f none (built.withFrame 0 f) := by
  obtain ⟨first, found, atStart⟩ := ofMethod.start
  have positive := List.length_pos_iff.mpr (ofMethod.segment _ first found).1
  have inside : 0 < built.frames.size := by
    obtain ⟨_, ⟨rest, within⟩, _⟩ := ofMethod.segment _ first found
    have length := congrArg List.length within
    rw [ofMethod.frames, Array.size_replicate]
    simp only [List.length_append, List.length_drop, m.numbered_length] at length
    omega
  have only {p : Nat} {f' : Frame} (holds : (built.withFrame 0 f).Holds p f') : p = 0 ∧ f' = f := by
    rw [withFrame_holds inside] at holds
    split at holds
    · exact ⟨Eq.symm ‹_›, holds⟩
    · unfold Holds at holds
      rw [ofMethod.frames, Array.getElem?_replicate] at holds
      split at holds <;> cases holds
  have continues := Continues.withFrame inside f
  refine ⟨inside, continues, ofMethod.wired.congr (fun _ => rfl) (fun _ => rfl) (fun _ _ _ => Iff.rfl) (fun _ => id),
    ?inside, ?visited, ⟨f, (withFrame_holds inside f).mpr (by rw [if_pos rfl]), f.merge_self 0⟩, ?landed⟩
  case inside =>
    intro p f' holds
    obtain ⟨regs, subs⟩ := MethodInfo.startFrame_keeps params
    rw [(only holds).2]
    exact ⟨regs, by simp [subs]⟩
  case visited =>
    rintro p ⟨f', holds⟩
    rw [(only holds).1]
    exact ⟨built.start, first, .refl, found, by omega, by unfold Block.stop; omega⟩
  case landed =>
    intro e edge target entry atEdge used kind atTarget
    obtain ⟨block, found', _⟩ := (ofMethod.wired.ends_live e _ _ ⟨edge, atEdge, used, rfl, rfl⟩).1
    have atEnd := List.getLast?_eq_getLast_of_ne_nil (ofMethod.segment _ block found').1
    have leads := ofMethod.mem_exits found' atEnd atEdge used rfl (by rw [kind]; rfl) atTarget
    exact absurd kind (no_return_mem_exits leads entry)

/-- A frame is replaced by one that fits, and at the start by one that still has absorbed the parameters. -/
theorem withFrame (sound : Sound m built params due g) (inside : pc < g.frames.size) (visits : g.Visits pc)
    (fits : g.Fits m pc f) (entered : pc = 0 → f.merge params pc = .ok f) : Sound m built params due (g.withFrame pc f) := by
  have continues := Continues.withFrame inside f
  have here : (g.withFrame pc f).Known pc := ⟨f, (withFrame_holds inside f).mpr (by rw [if_pos rfl])⟩
  refine ⟨sound.toContinues.trans continues, sound.wired.congr (fun _ => rfl) (fun _ => rfl) (fun _ _ _ => Iff.rfl)
    (fun _ => id), ?inside, ?visited, ?entered, ?landed⟩
  case inside =>
    intro p f' holds
    rw [withFrame_holds inside] at holds
    split at holds
    · rw [holds]
      refine ⟨fits.1, fun entry member => ?_⟩
      rcases fits.2 entry member with known | rfl
      · exact continues.known entry known
      · exact here
    · exact (sound.inside p f' holds).continues continues
  case visited =>
    intro p known
    by_cases same : pc = p
    · exact same ▸ continues.visits visits
    · obtain ⟨f', holds⟩ := known
      rw [withFrame_holds inside, if_neg same] at holds
      exact continues.visits (sound.visited p ⟨f', holds⟩)
  case entered =>
    by_cases first : pc = 0
    · exact ⟨f, (withFrame_holds inside f).mpr (by rw [if_pos first]), first ▸ entered first⟩
    · obtain ⟨old, holds, absorbs⟩ := sound.entered
      exact ⟨old, (withFrame_holds inside f).mpr (by rwa [if_neg first]), absorbs⟩
  case landed =>
    intro e edge target entry found used kind atTarget
    exact (sound.landed e edge target entry found used kind atTarget).imp_left (continues.known target.pc)

/-- A block that can be reached gets the edge for a return; the frame at its target is due then. -/
theorem withEdge (sound : Sound m built params none g) {target : BlockId} (entry : Nat) (sourceLive : g.Live b)
    (found : g.blocks[target]? = some block) (used : block.removed = false) :
    Sound m built params (some block.pc) (g.withEdge b target (.leaveSub entry)) := by
  have continues := Continues.withEdge g b target entry
  refine ⟨sound.toContinues.trans continues, sound.wired.withEdge _ sourceLive ⟨block, found, used⟩, sound.inside,
    fun p known => continues.visits (sound.visited p known), sound.entered, ?_⟩
  intro e edge target' entry' atEdge inUse kind atTarget
  obtain ⟨old, atTarget', pc, _⟩ := continues.symm.block atTarget
  rw [withEdge_edge] at atEdge
  split at atEdge
  · cases atEdge
    cases found.some_unique atTarget'
    exact .inr (by rw [pc])
  · rcases sound.landed e edge old entry' atEdge inUse kind atTarget' with known | due
    · exact .inl (pc ▸ known)
    · cases due

theorem settle (sound : Sound m built params (some pc) g) (known : g.Known pc) : Sound m built params none g where
  __ := sound
  landed e edge target entry found used kind atTarget := by
    rcases sound.landed e edge target entry found used kind atTarget with before | due
    · exact .inl before
    · cases due
      exact .inl known

theorem renumbered (sound : Sound m built params none g) (numbered : Renumbered g g') : Sound m built params none g' := by
  have continues := numbered.continues
  have holds (pc : Nat) (f : Frame) : g'.Holds pc f ↔ g.Holds pc f := by
    unfold Holds
    rw [numbered.sameBodies.frames]
  have known (pc : Nat) : g'.Known pc ↔ g.Known pc := exists_congr (holds pc)
  refine ⟨sound.toContinues.trans continues, numbered.wired sound.wired, ?_, ?_, ?_, ?_⟩
  · exact fun pc f held => (sound.inside pc f ((holds pc f).mp held)).continues continues
  · exact fun pc held => continues.visits (sound.visited pc ((known pc).mp held))
  · obtain ⟨old, held, absorbs⟩ := sound.entered
    exact ⟨old, (holds 0 old).mpr held, absorbs⟩
  · intro e edge target entry found used kind atTarget
    obtain ⟨old, atTarget', pc, _⟩ := continues.symm.block atTarget
    obtain ⟨back, found'⟩ := numbered.edges e
    rw [found] at found'
    obtain ⟨edge', atEdge, rfl⟩ := Option.map_eq_some_iff.mp found'.symm
    rcases sound.landed e edge' old entry atEdge used kind atTarget' with before | due
    · exact .inl ((known _).mpr (pc ▸ before))
    · cases due

end Sound

end Graph

namespace Solver

open Unstack.Graph

variable {m : MethodInput} {built : Graph} {params frame : Frame} {due : Option Nat} {s s' : Solver} {b : BlockId}
  {pc entry : Nat} {u : Unit}

theorem Moves.continues (moves : Moves s s') : Continues s.graph s'.graph := by
  induction moves with
  | refl => exact .refl _
  | tail _ move ih =>
    cases move with
    | store pc frame inside => exact ih.trans (.withFrame inside frame)
    | link b target entry => exact ih.trans (.withEdge _ b target entry)

/-- A frame that arrives fits, so the merged one does. -/
theorem arrive_sound (sound : Sound m built params due s.graph) (visits : s.graph.Visits pc)
    (fits : s.graph.Fits m pc frame) (run : Runs (arrive pc frame) s u s') :
    Sound m built params due s'.graph ∧ s'.graph.Known pc := by
  have stores {known : Option Frame} (f : Frame) (found : s.graph.frames[pc]? = some known)
      (fits : s.graph.Fits m pc f) (entered : pc = 0 → f.merge params pc = .ok f) :
      Sound m built params due (s.stored pc f).graph ∧ (s.stored pc f).graph.Known pc := by
    have inside := found.lt_size
    exact ⟨sound.withFrame inside visits fits entered, f, (withFrame_holds inside f).mpr (by rw [if_pos rfl])⟩
  obtain ⟨missing, rfl⟩ | ⟨old, merged, holds, merge, rfl⟩ := runs_arrive run
  · refine stores frame missing fits fun first => ?_
    obtain ⟨old, holds, _⟩ := sound.entered
    subst first
    cases missing.symm.trans holds
  · split
    · exact ⟨sound, old, holds⟩
    · obtain ⟨length, part⟩ := Frame.merge_shape merge
      obtain ⟨regs, subs⟩ := sound.inside pc old holds
      refine stores merged holds ⟨?_, fun entry member => ?_⟩ fun first => ?_
      · rw [length, regs, fits.1, Nat.min_self]
      · exact .inl (subs entry (part.subset member))
      · obtain ⟨old', holds', absorbs⟩ := sound.entered
        subst first
        cases holds.symm.trans holds'
        exact Frame.merge_absorbs absorbs (regs.trans fits.1.symm) merge

theorem record_sound (sound : Sound m built params due s.graph) (visits : s.graph.Visits pc)
    (fits : s.graph.Fits m pc frame) (first : pc = 0 → s.graph.Holds pc frame) (run : Runs (record pc frame) s u s') :
    Sound m built params due s'.graph := by
  obtain ⟨_, rfl⟩ | ⟨other, inside, rfl⟩ := runs_record run
  · exact sound
  · exact sound.withFrame inside visits fits fun atStart => absurd (first atStart) other

/-- The edge back from a subroutine leaves its target due a frame. -/
theorem linkReturn_sound (sound : Sound m built params none s.graph) {target : BlockId} (live : s.graph.Live b)
    (found : s.graph.blocks[target]? = some block) (used : block.removed = false)
    (run : Runs (linkReturn b target entry) s u s') :
    Sound m built params (some block.pc) s'.graph ∧ s'.graph.Steps b target := by
  obtain ⟨outs, leaving, ⟨⟨e, edge⟩, member, rfl, kind⟩, rfl⟩ | ⟨_, _, _, rfl⟩ := runs_linkReturn run
  · obtain ⟨source, atSource, _⟩ := live
    have listed := (outs_eq_ok atSource).mp leaving
    refine ⟨{ sound with landed := fun e edge target entry found used kind atTarget => ?_ }, e, ?_⟩
    · exact (sound.landed e edge target entry found used kind atTarget).imp_right nofun
    · have out : e ∈ s'.graph.outsOf b := by
        rw [outsOf_eq atSource, ← listed.1]
        exact List.mem_map_of_mem member
      obtain ⟨_, edge', atEdge, unused, source', _⟩ := (sound.wired.mem_outs b e).mp out
      cases atEdge.some_unique (listed.2 _ member)
      exact ⟨edge, atEdge, unused, source', rfl⟩
  · exact ⟨sound.withEdge entry live found used, s.graph.edges.size,
      (withEdge_joins ..).mpr (.inl ⟨rfl, rfl, rfl⟩)⟩

/-- The frame that is due arrives with the edge. -/
theorem returnTo_sound (ofMethod : built.Built m) (sound : Sound m built params none s.graph)
    (reachable : s.graph.Reachable b) {site : Nat} {entryFrame : Frame} (regs : frame.regs.length = m.info.regs)
    (run : Runs (returnTo b pc entry frame entryFrame site) s u s') : Sound m built params none s'.graph := by
  obtain ⟨_, rfl⟩ | ⟨call, target, mid, atSite, after, link, arrival⟩ := runs_returnTo run
  · exact sound
  · obtain ⟨block, found, used, start⟩ := eq_some_of_blockAt after
    have ⟨linked, step⟩ := linkReturn_sound sound (sound.live ofMethod reachable) found used link
    have continues := (moves_linkReturn link).continues
    obtain ⟨block', found', start', ops, _⟩ := continues.block found
    have positive := List.length_pos_iff.mpr (((ofMethod.congr sound.toSameCode).segment target block found).1)
    have visits : mid.graph.Visits (site + 1) :=
      ⟨target, block', (continues.reachable reachable).tail step, found', by omega,
        by unfold Block.stop; rw [start', ops]; omega⟩
    have fits : mid.graph.Fits m (site + 1) (frame.returnedTo entryFrame call) :=
      ⟨by rw [← regs]; exact List.length_mapIdx,
        fun entry member => .inl (continues.known entry ((sound.inside site call atSite).2 entry member))⟩
    rw [start] at linked
    have ⟨arrived, known⟩ := arrive_sound linked visits fits arrival
    exact arrived.settle known

theorem returnToCalls_sound (ofMethod : built.Built m) (sound : Sound m built params none s.graph)
    (reachable : s.graph.Reachable b) (regs : frame.regs.length = m.info.regs)
    (run : Runs (returnToCalls b pc frame) s u s') : Sound m built params none s'.graph := by
  obtain ⟨_, rfl⟩ | ⟨_, _, ⟨_, rfl⟩ | ⟨entryFrame, _, calls⟩⟩ := runs_returnToCalls run
  · exact sound
  · exact sound
  · have kept := forM_keeps (fun s => Sound m built params none s.graph ∧ s.graph.Reachable b)
      (fun site _ mid next before run =>
        ⟨returnTo_sound ofMethod before.1 before.2 regs run, (moves_returnTo run).continues.reachable before.2⟩)
      ⟨sound, reachable⟩ calls
    exact kept.1

/-- A frame on its way through a block, before the operations that are left. Only the one behind the last operation
can be in a subroutine that was not entered before, the one that this operation enters. -/
def Passes (m : MethodInput) (g : Graph) (block : Block) (left : List Operation) (f : Frame) : Prop :=
  f.regs.length = m.info.regs ∧ ∀ entry ∈ f.subs,
    g.Known entry ∨ (left = [] ∧ ∃ o, block.ops.getLast? = some o ∧ o.instr = .enterSub entry)

section Block

variable {block : Block} {front rest : List Operation} {o : Operation} {g : Graph} {frames : List Frame}

theorem Passes.entered (passes : Passes m g block (o :: rest) frame) : g.Entered m frame :=
  ⟨passes.1, fun entry member => (passes.2 entry member).resolve_right fun none => (nomatch none.1)⟩

/-- One operation leads from its frame to the next one's. -/
theorem Passes.execute {next : Frame} (laid : built.Laid m) (found : built.blocks[b]? = some block)
    (whole : block.ops = front ++ o :: rest) (entered : g.Entered m frame)
    (run : frame.execute o.pc o.instr = .ok next) : Passes m g block rest next := by
  obtain ⟨regs, subs, _⟩ := Frame.execute_keeps run
  refine ⟨regs.trans entered.1, fun entry member => ?_⟩
  rcases subs with same | ⟨target, enters, more⟩
  · exact .inl (entered.2 entry (same ▸ member))
  · rw [more, List.mem_append, List.mem_singleton] at member
    rcases member with old | rfl
    · exact .inl (entered.2 entry old)
    · -- a subroutine is entered at the end of a block
      have atEnd : rest = [] := by
        by_contra inner
        have flows : o.instr.endsBlock = false := laid.flows_inside found (by
          rw [whole, List.dropLast_append_of_ne_nil (List.cons_ne_nil o rest), List.dropLast_cons_of_ne_nil inner]
          simp)
        rw [enters] at flows
        cases flows
      exact .inr ⟨atEnd, o, by rw [whole, atEnd, List.getLast?_concat], enters⟩

theorem visits_of_mem (laid : built.Laid m) (same : SameCode built g) (reachable : g.Reachable b)
    (found : built.blocks[b]? = some block) (whole : block.ops = front ++ o :: rest) :
    o.pc = block.pc + front.length ∧ g.Visits o.pc := by
  have pc : o.pc = block.pc + front.length := laid.op_pc found (by
    rw [whole, List.getElem?_append_right (Nat.le_refl _), Nat.sub_self, List.getElem?_cons_zero])
  obtain ⟨block', found', start, ops, _⟩ := same.block found
  refine ⟨pc, b, block', reachable, found', by omega, ?_⟩
  unfold Block.stop
  rw [start, ops, whole, List.length_append, List.length_cons]
  omega

theorem step_sound (ofMethod : built.Built m) (sound : Sound m built params none s.graph)
    (reachable : s.graph.Reachable b) (regs : frame.regs.length = m.info.regs) {next : Frame}
    (run : Runs (step b o frame) s next s') : Sound m built params none s'.graph := by
  obtain ⟨_, ⟨_, _, returns⟩ | ⟨_, rfl⟩⟩ := runs_step run
  · exact returnToCalls_sound ofMethod sound reachable regs returns
  · exact sound

/-- By induction on the operations of the block that are left. -/
theorem run_sound (ofMethod : built.Built m) (found : built.blocks[b]? = some block) {ops : List Operation}
    (whole : block.ops = front ++ ops) (sound : Sound m built params none s.graph) (reachable : s.graph.Reachable b)
    (passes : Passes m s.graph block ops frame) (first : front = [] → s.graph.Holds block.pc frame) {last : Frame}
    (run : Runs (Solver.run b ops frame) s (frames, last) s') :
    Sound m built params none s'.graph ∧ (∀ f ∈ frames, s'.graph.Entered m f) ∧ Passes m s'.graph block [] last := by
  induction ops generalizing s frame frames front with
  | nil =>
    obtain ⟨rfl, rfl, rfl⟩ := runs_run_nil run
    exact ⟨sound, by simp, passes⟩
  | cons o rest ih =>
    obtain ⟨mid, mid', next, others, rfl, recorded, stepped, onward⟩ := runs_run_cons run
    have entered := passes.entered
    have ⟨pc, visits⟩ := visits_of_mem ofMethod.toLaid sound.toSameCode reachable found whole
    have atStart : o.pc = 0 → s.graph.Holds o.pc frame := by
      intro zero
      have empty : front = [] := List.length_eq_zero_iff.mp (by omega)
      rw [pc, empty]
      exact first empty
    have toMid := (moves_record recorded).continues
    have toMid' := toMid.trans (moves_step stepped).continues
    have soundMid := record_sound sound visits (entered.fits o.pc) atStart recorded
    have soundMid' := step_sound ofMethod soundMid (toMid.reachable reachable) entered.1 stepped
    have passed := Passes.execute ofMethod.toLaid found whole (entered.continues toMid') (runs_step stepped).1
    have whole' : block.ops = (front ++ [o]) ++ rest := by rw [whole, List.append_assoc]; rfl
    have ⟨sound', inside, last⟩ := ih whole' soundMid' (toMid'.reachable reachable) passed (by simp) onward
    have atFirst := entered.continues (toMid'.trans (moves_run onward).continues)
    exact ⟨sound', List.forall_mem_cons.mpr ⟨atFirst, inside⟩, last⟩

/-- The edges of a block that enters a subroutine lead there, apart from handlers and returns. -/
theorem Sound.enters (sound : Sound m built params due s.graph) (ofMethod : built.Built m)
    (found : built.blocks[b]? = some block) (atEnd : block.ops.getLast? = some o) (enters : o.instr = .enterSub entry)
    {back : Bool} {target : Block} (atEdge : s.graph.edges[e]? = some { edge with back })
    (used : edge.removed = false) (source : edge.source = b) (flow : edge.kind.isHandler = false)
    (noReturn : ∀ entry, edge.kind ≠ .leaveSub entry) (atTarget : s.graph.blocks[edge.target]? = some target) :
    target.pc = entry := by
  rcases sound.added e { edge with back } atEdge with ⟨entry, returns⟩ | ⟨back, old⟩
  · exact absurd returns (noReturn entry)
  · obtain ⟨target', found', start, _⟩ := sound.toSameCode.symm.block atTarget
    have leads := ofMethod.mem_exits found atEnd old used source flow found'
    rw [Operation.exits, Operation.leaving, enters] at leads
    have same : (edge.kind, target'.pc) = (.enterSub entry, entry) := List.mem_singleton.mp leads
    rw [← start]
    exact congrArg Prod.snd same

theorem follow_sound (ofMethod : built.Built m) (found : built.blocks[b]? = some block)
    (sound : Sound m built params none s.graph) (reachable : s.graph.Reachable b) {last : Frame}
    (inside : ∀ f ∈ frames, s.graph.Entered m f) (passes : Passes m s.graph block [] last) {back : Bool}
    (atEdge : s.graph.edges[e]? = some { edge with back }) (used : edge.removed = false) (source : edge.source = b)
    (run : Runs (follow frames last edge) s u s') : Sound m built params none s'.graph := by
  obtain ⟨target, atTarget, other⟩ := runs_follow run
  have laid := ofMethod.toLaid.congr sound.toSameCode
  have positive := List.length_pos_iff.mpr (laid.segment edge.target target atTarget).1
  have visits : s.graph.Visits target.pc :=
    ⟨edge.target, target, reachable.tail ⟨e, _, atEdge, used, source, rfl⟩, atTarget, Nat.le_refl _,
      by unfold Block.stop; omega⟩
  obtain ⟨_, _, catches⟩ | ⟨_, _, rfl⟩ | ⟨flow, noReturn, arrival⟩ := other
  · have kept := forM_keeps (fun mid => Sound m built params none mid.graph ∧ Continues s.graph mid.graph)
      (fun f member mid next before run =>
        have entered := ((inside f member).continues before.2).withStack _
        have arrival := runs_catch run
        ⟨(arrive_sound before.1 (before.2.visits visits) (entered.fits _) arrival).1,
          before.2.trans (moves_arrive arrival).continues⟩)
      ⟨sound, .refl _⟩ catches
    exact kept.1
  · exact sound
  · refine (arrive_sound sound visits ⟨passes.1, fun entry member => ?_⟩ arrival).1
    rcases passes.2 entry member with known | ⟨_, o, atEnd, enters⟩
    · exact .inl known
    · exact .inr (Sound.enters sound ofMethod found atEnd enters atEdge used source flow noReturn atTarget).symm

end Block

/-- A visit of a block keeps the invariant. -/
theorem propagate_sound (ofMethod : built.Built m) (sound : Sound m built params none s.graph)
    (reachable : s.graph.Reachable b) (run : Runs (propagate b) s u s') : Sound m built params none s'.graph := by
  obtain ⟨block, found, ⟨_, rfl⟩ | ⟨entry, frames, last, mid, outs, holds, run, leaving, follows⟩⟩ := runs_propagate run
  · exact sound
  · obtain ⟨block₀, found₀, start, ops, _⟩ := sound.toSameCode.symm.block found
    have entered := sound.inside _ entry holds
    rw [← ops] at run
    have ⟨sound', inside, passes⟩ := run_sound ofMethod found₀ (List.nil_append _).symm sound reachable
      ⟨entered.1, fun entry member => .inl (entered.2 entry member)⟩ (fun _ => start ▸ holds) run
    have continues := (moves_run run).continues
    obtain ⟨block', found', _⟩ := continues.block found
    have listed := (outs_eq_ok found').mp leaving
    have kept := forM_keeps (fun next => Sound m built params none next.graph ∧ Continues mid.graph next.graph)
      (fun out member next next' before step => by
        obtain ⟨e, edge⟩ := out
        have out : e ∈ mid.graph.outsOf b := by
          rw [outsOf_eq found', ← listed.1]
          exact List.mem_map_of_mem member
        obtain ⟨_, edge', atEdge, used, source, _⟩ := (sound'.wired.mem_outs b e).mp out
        cases atEdge.some_unique (listed.2 _ member)
        obtain ⟨back, atEdge'⟩ := before.2.edges e edge atEdge
        have reachable' := before.2.reachable (continues.reachable reachable)
        refine ⟨follow_sound ofMethod found₀ before.1 reachable' (fun f member => (inside f member).continues before.2)
          ⟨passes.1, fun entry member => ?_⟩ atEdge' used source step, before.2.trans (moves_follow step).continues⟩
        exact (passes.2 entry member).imp_left (before.2.known entry))
      ⟨sound', .refl _⟩ follows
    exact kept.1

end Solver

end Unstack
