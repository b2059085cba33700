import Unstack.Proofs.Build.Cover
import Unstack.Proofs.Dataflow.Subroutine
import Unstack.Proofs.Frame.Semilattice

namespace Unstack

variable {last : Frame} {frames : List Frame} {ops : List Operation} {pc : Nat} {α : Type}

namespace Frame

variable {f : Frame}

/-- Executes operations in order: the frame before each of them, and the one behind the last. -/
def through : List Operation → Frame → Except FrameError (List Frame × Frame)
  | [], f => return ([], f)
  | o :: rest, f => do
    let next ← f.execute o.pc o.instr
    let (frames, last) ← through rest next
    return (f :: frames, last)

/-- A frame arrives where another one may be known. -/
def meet (pc : Nat) : Option Frame → Frame → Except FrameError (Option Frame)
  | none, f => return some f
  | some old, f => return some (← old.merge f pc)

/-- Frames arrive one after the other. -/
def meetAll (pc : Nat) (known : Option Frame) (frames : List Frame) : Except FrameError (Option Frame) :=
  frames.foldlM (meet pc) known

/-- A frame that is known does not change when `f` arrives. -/
def Absorbed (pc : Nat) (f : Frame) (known : Option Frame) : Prop := ∃ old, known = some old ∧ old.merge f pc = .ok old

theorem through_regs (run : f.through ops = .ok (frames, last)) :
    (∀ f' ∈ frames, f'.regs.length = f.regs.length) ∧ last.regs.length = f.regs.length := by
  induction ops generalizing f frames with
  | nil =>
    cases run
    exact ⟨by simp, rfl⟩
  | cons o rest ih =>
    obtain ⟨next, executes, run⟩ := bind_eq_ok.mp run
    obtain ⟨⟨others, _⟩, onward, run⟩ := bind_eq_ok.mp run
    cases run
    obtain ⟨each, atEnd⟩ := ih onward
    have same := (execute_keeps executes).1
    exact ⟨List.forall_mem_cons.mpr ⟨rfl, fun f' member => (each f' member).trans same⟩, atEnd.trans same⟩

theorem through_snoc {o : Operation} {mid : Frame} (run : f.through ops = .ok (frames, mid))
    (executes : mid.execute o.pc o.instr = .ok last) : f.through (ops ++ [o]) = .ok (frames ++ [mid], last) := by
  induction ops generalizing f frames with
  | nil =>
    cases run
    simp [through, executes, bind, Except.bind, pure, Except.pure]
  | cons o' rest ih =>
    obtain ⟨next, executes', run⟩ := bind_eq_ok.mp run
    obtain ⟨⟨others, _⟩, onward, run⟩ := bind_eq_ok.mp run
    cases run
    simp [through, executes', ih onward, bind, Except.bind, pure, Except.pure]

/-- Merging the same frame once more changes nothing. -/
theorem merge_taken {x merged : Frame} (regs : f.regs.length = x.regs.length) (run : f.merge x pc = .ok merged) :
    merged.merge x pc = .ok merged := by
  have depth := depth_of_merge run
  rw [merge_eq pc depth] at run
  cases run
  have depth' : (mergeStack pc f.regs.length f.stack x.stack).length = x.stack.length := by
    rw [mergeStack_length, depth, Nat.min_self]
  have width : (mergeRegs pc 0 f.regs x.regs).length = f.regs.length := by
    rw [mergeRegs_length, regs, Nat.min_self]
  rw [merge_eq pc depth']
  simp only [width, mergeRegs_assoc, mergeRegs_self, mergeStack_assoc pc f.regs.length depth rfl, mergeStack_self,
    commonStart_assoc, commonStart_eq_self.mpr List.prefix_rfl]

section Meeting

variable {pc width : Nat} {known known' : Option Frame} {f : Frame} {frames : List Frame}

theorem meetAll_cons : meetAll pc known (f :: frames) = meet pc known f >>= fun mid => meetAll pc mid frames :=
  List.foldlM_cons

/-- What has met a frame absorbs it, and all that was absorbed before. -/
theorem meet_absorbs (sized : ∀ old, known = some old → old.regs.length = width) (fits : f.regs.length = width)
    (run : meet pc known f = .ok known') :
    (∀ new, known' = some new → new.regs.length = width) ∧ Absorbed pc f known' ∧
      ∀ x, Absorbed pc x known → Absorbed pc x known' := by
  cases known with
  | none =>
    cases run
    refine ⟨?_, ⟨f, rfl, f.merge_self pc⟩, ?_⟩
    · rintro _ ⟨⟩
      exact fits
    · rintro x ⟨_, ⟨⟩, _⟩
  | some old =>
    obtain ⟨merged, merge, run⟩ := bind_eq_ok.mp run
    cases run
    have same : old.regs.length = f.regs.length := (sized old rfl).trans fits.symm
    refine ⟨?_, ⟨merged, rfl, merge_taken same merge⟩, ?_⟩
    · rintro _ ⟨⟩
      rw [(merge_shape merge).1, same, fits, Nat.min_self]
    · rintro x ⟨_, ⟨⟩, absorbs⟩
      exact ⟨merged, rfl, merge_absorbs absorbs same merge⟩

/-- What has arrived stays taken up, whatever comes later. -/
theorem meetAll_absorbs (sized : ∀ old, known = some old → old.regs.length = width)
    (fits : ∀ f ∈ frames, f.regs.length = width) (run : meetAll pc known frames = .ok known') :
    (∀ f ∈ frames, Absorbed pc f known') ∧ ∀ x, Absorbed pc x known → Absorbed pc x known' := by
  induction frames generalizing known with
  | nil =>
    cases run
    exact ⟨by simp, fun _ => id⟩
  | cons f rest ih =>
    obtain ⟨mid, first, others⟩ := bind_eq_ok.mp (meetAll_cons ▸ run)
    obtain ⟨fitsFirst, fitsRest⟩ := List.forall_mem_cons.mp fits
    obtain ⟨sized', taken, kept⟩ := meet_absorbs sized fitsFirst first
    obtain ⟨each, kept'⟩ := ih sized' fitsRest others
    exact ⟨List.forall_mem_cons.mpr ⟨kept' f taken, each⟩, fun x absorbed => kept' x (kept x absorbed)⟩

theorem meetAll_of_absorbed (absorbed : ∀ f ∈ frames, Absorbed pc f known) : meetAll pc known frames = .ok known := by
  induction frames with
  | nil => rfl
  | cons f rest ih =>
    obtain ⟨⟨old, rfl, absorbs⟩, absorbed⟩ := List.forall_mem_cons.mp absorbed
    have first : meet pc (some old) f = .ok (some old) := by rw [meet, absorbs]; rfl
    rw [meetAll_cons, first]
    exact ih absorbed

theorem meetAll_of_same (nonempty : frames ≠ []) (same : ∀ f' ∈ frames, f' = f) :
    meetAll pc none frames = .ok (some f) := by
  cases frames with
  | nil => exact absurd rfl nonempty
  | cons first rest =>
    obtain ⟨rfl, same⟩ := List.forall_mem_cons.mp same
    exact meetAll_of_absorbed fun f' member => ⟨first, rfl, by rw [same f' member, merge_self]⟩

/-- A register that is the same in all frames is not merged. -/
theorem meetAll_reg {r : Nat} {value : Option SymValue} (before : ∀ old, known = some old → old.reg r = value)
    (same : ∀ f ∈ frames, f.reg r = value) (run : meetAll pc known frames = .ok known') :
    ∀ new, known' = some new → new.reg r = value := by
  induction frames generalizing known with
  | nil =>
    cases run
    exact before
  | cons f rest ih =>
    obtain ⟨mid, first, others⟩ := bind_eq_ok.mp (meetAll_cons ▸ run)
    obtain ⟨here, same⟩ := List.forall_mem_cons.mp same
    refine ih ?_ same others
    cases known with
    | none =>
      cases first
      rintro _ ⟨⟩
      exact here
    | some old =>
      obtain ⟨merged, merge, first⟩ := bind_eq_ok.mp first
      cases first
      rintro _ ⟨⟩
      rw [reg_merge merge, before old rfl, here, mergeReg_self]

end Meeting

end Frame

theorem flatMap_eq_of_unique {β κ : Type} {key : α → κ} {items : List α} {f : α → List β} {x : α}
    (once : (items.map key).Nodup) (member : x ∈ items) (others : ∀ y ∈ items, key y ≠ key x → f y = []) :
    items.flatMap f = f x := by
  induction items with
  | nil => cases member
  | cons a rest ih =>
    obtain ⟨fresh, once⟩ := List.nodup_cons.mp once
    have different (y : α) (later : y ∈ rest) : key y ≠ key a := fun same => fresh (same ▸ List.mem_map_of_mem later)
    rw [List.flatMap_cons]
    rcases List.mem_cons.mp member with rfl | later
    · rw [List.flatMap_eq_nil_iff.mpr fun y later => others y (.tail _ later) (different y later),
        List.append_nil]
    · rw [others a (.head _) (different x later).symm,
        ih once later fun y member => others y (.tail _ member), List.nil_append]

/-- The frames that go along an edge to the operation `pc` when a block is executed. A handler gets one for each
operation; what a return brings is a matter of its call. -/
def EdgeKind.sent (pc : Nat) (frames : List Frame) (last : Frame) : EdgeKind → List Frame
  | .handler types => frames.map fun f => { f with stack := [⟨pc, f.regs.length, Solver.caughtType types, .defined⟩] }
  | .leaveSub _ => []
  | _ => [last]

/-- Back from a subroutine. -/
def EdgeKind.isReturn : EdgeKind → Bool
  | .leaveSub _ => true
  | _ => false

theorem EdgeKind.sent_eq {kind : EdgeKind} (flow : kind.isHandler = false) (noReturn : kind.isReturn = false) (pc : Nat)
    (frames : List Frame) (last : Frame) : kind.sent pc frames last = [last] := by
  cases kind with
  | handler => cases flow
  | leaveSub => cases noReturn
  | _ => rfl

theorem EdgeKind.sent_regs {kind : EdgeKind} {width : Nat} {f : Frame} (each : ∀ f ∈ frames, f.regs.length = width)
    (atEnd : last.regs.length = width) (member : f ∈ kind.sent pc frames last) : f.regs.length = width := by
  cases kind with
  | handler types =>
    obtain ⟨f', inside, rfl⟩ := List.mem_map.mp member
    exact each f' inside
  | leaveSub => cases member
  | _ => rwa [List.mem_singleton.mp member]

namespace Graph

variable {g : Graph} {b : BlockId} {block : Block} {f : Frame}

/-- No return from a subroutine leads to the block. -/
def Unreturned (g : Graph) (b : BlockId) : Prop :=
  ∀ edge ∈ g.edges, edge.removed = false → edge.target = b → edge.kind.isReturn = false

/-- The frame behind a block, if the one at its start is known and leads there. -/
def behind? (g : Graph) (b : BlockId) : Option Frame := do
  let block ← g.blocks[b]?
  let first ← (g.frames[block.pc]?).join
  match first.through block.ops with
  | .ok (_, last) => some last
  | .error _ => none

theorem behind?_eq {first : Frame} (found : g.blocks[b]? = some block) (holds : g.Holds block.pc first)
    (run : first.through block.ops = .ok (frames, last)) : g.behind? b = some last := by
  unfold Holds at holds
  simp [behind?, found, holds, run]

theorem behind?_eq_none (found : g.blocks[b]? = some block)
    (unknown : g.frames[block.pc]? = some none) : g.behind? b = none := by
  simp [behind?, found, unknown]

/-- What stands behind a block depends on its code and its first frame. -/
theorem behind?_congr {g' : Graph} (same : SameCode g g')
    (found : g.blocks[b]? = some block) (frames : g'.frames[block.pc]? = g.frames[block.pc]?) :
    g'.behind? b = g.behind? b := by
  obtain ⟨block', found', start, ops, _⟩ := same.block found
  simp [behind?, found, found', start, ops, frames]

theorem absorbs_iff {known : Option Frame} (found : g.frames[pc]? = some known) (f : Frame) :
    g.Absorbs pc f ↔ Frame.Absorbed pc f known := by
  simp only [Absorbs, Holds, Frame.Absorbed, found, Option.some.injEq]

/-- When the block is executed from the frame `f`, an edge takes `f'` to another block. -/
def Sends (g : Graph) (b target : BlockId) (f f' : Frame) : Prop :=
  ∃ block next frames last edge, g.blocks[b]? = some block ∧ g.blocks[target]? = some next ∧
    f.through block.ops = .ok (frames, last) ∧ edge ∈ g.edges ∧ edge.removed = false ∧ edge.source = b ∧
    edge.target = target ∧ f' ∈ edge.kind.sent next.pc frames last

/-- Frames are sent on with as many registers as they had. -/
theorem Sends.regs {target : BlockId} {f' : Frame} (sends : g.Sends b target f f') :
    f'.regs.length = f.regs.length := by
  obtain ⟨_, _, _, _, _, _, _, run, _, _, _, _, member⟩ := sends
  obtain ⟨each, atEnd⟩ := Frame.through_regs run
  exact EdgeKind.sent_regs each atEnd member

theorem Sends.steps {target : BlockId} {f' : Frame} (sends : g.Sends b target f f') : g.Steps b target := by
  obtain ⟨_, _, _, _, edge, _, _, _, inEdges, used, source, toTarget, _⟩ := sends
  obtain ⟨e, atEdge⟩ := Array.mem_iff_getElem?.mp inEdges
  exact ⟨e, edge, atEdge, used, source, toTarget⟩

/-- The edge `e` from `b` is the only one that leads to `target`, and it takes the frame behind `b` there. -/
structure Single (g : Graph) (e : EdgeId) (b target : BlockId) : Prop where
  joins : g.Joins e b target
  only (e' : EdgeId) (c : BlockId) : g.Joins e' c target → e' = e
  flow (edge : Edge) : g.edges[e]? = some edge → edge.kind.isHandler = false ∧ edge.kind.isReturn = false

namespace Single

variable {g : Graph} {e : EdgeId} {b target : BlockId} (single : g.Single e b target)

include single

theorem source {e' : EdgeId} {c : BlockId} (joins : g.Joins e' c target) : c = b := by
  cases single.only e' c joins
  exact (joins.unique single.joins).1

theorem unreturned : g.Unreturned target := by
  intro edge inEdges used toTarget
  obtain ⟨e', atEdge⟩ := Array.mem_iff_getElem?.mp inEdges
  cases single.only e' edge.source ⟨edge, atEdge, used, rfl, toTarget⟩
  exact (single.flow edge atEdge).2

end Single

theorem Traces.through (traces : g.Traces ops f frames last) : f.through ops = .ok (frames, last) := by
  induction traces with
  | nil => rfl
  | cons _ executes _ ih => simp [Frame.through, executes, ih, bind, Except.bind, pure, Except.pure]

end Graph

namespace Solver

open Unstack.Graph

variable {m : MethodInput} {built final : Graph} {params : Frame} {s s' s'' : Solver} {b t : BlockId}
  {block next : Block} {pc : Nat} {u : Unit} {e : EdgeId}

/-- The frames arrive at an operation, one after the other. -/
def Brings (pc : Nat) (frames : List Frame) (s s' : Solver) : Prop :=
  ∃ known known', s.graph.frames[pc]? = some known ∧ Frame.meetAll pc known frames = .ok known' ∧
    s'.graph.frames[pc]? = some known'

namespace Brings

variable {frames frames' : List Frame}

theorem nothing (inside : pc < s.graph.frames.size) (same : s'.graph.frames[pc]? = s.graph.frames[pc]?) :
    Brings pc [] s s' :=
  ⟨_, _, Array.getElem?_eq_getElem inside, rfl, same.trans (Array.getElem?_eq_getElem inside)⟩

theorem append (first : Brings pc frames s s') (second : Brings pc frames' s' s'') :
    Brings pc (frames ++ frames') s s'' := by
  obtain ⟨known, mid, before, run, between⟩ := first
  obtain ⟨mid', known', between', run', after⟩ := second
  cases between.some_unique between'
  refine ⟨known, known', before, ?_, after⟩
  rw [Frame.meetAll, List.foldlM_append, ← Frame.meetAll, run]
  exact run'

theorem congr_left (brings : Brings pc frames s' s'') (same : s'.graph.frames[pc]? = s.graph.frames[pc]?) :
    Brings pc frames s s'' := by
  obtain ⟨known, known', before, run, after⟩ := brings
  exact ⟨known, known', same.symm.trans before, run, after⟩

/-- Frames that are absorbed already leave what is known as it is. -/
theorem unchanged (brings : Brings pc frames s s') (absorbed : ∀ f ∈ frames, s.graph.Absorbs pc f) :
    s'.graph.frames[pc]? = s.graph.frames[pc]? := by
  obtain ⟨known, known', before, run, after⟩ := brings
  rw [Frame.meetAll_of_absorbed fun f member => (absorbs_iff before f).mp (absorbed f member)] at run
  cases run
  exact after.trans before.symm

/-- What has been brought is absorbed, and nothing is forgotten. -/
theorem absorbs (brings : Brings pc frames s s') {width : Nat}
    (sized : ∀ old, s.graph.Holds pc old → old.regs.length = width) (fits : ∀ f ∈ frames, f.regs.length = width) :
    (∀ f ∈ frames, s'.graph.Absorbs pc f) ∧ ∀ f, s.graph.Absorbs pc f → s'.graph.Absorbs pc f := by
  obtain ⟨known, known', before, run, after⟩ := brings
  have sized' : ∀ old, known = some old → old.regs.length = width :=
    fun old same => sized old (before.trans (congrArg some same))
  obtain ⟨taken, kept⟩ := Frame.meetAll_absorbs sized' fits run
  simp only [absorbs_iff before, absorbs_iff after]
  exact ⟨taken, kept⟩

end Brings

theorem arrive_brings {frame : Frame} (run : Runs (arrive pc frame) s u s') : Brings pc [frame] s s' := by
  have stores {known : Option Frame} (found : s.graph.frames[pc]? = some known) (f : Frame) :
      (s.stored pc f).graph.frames[pc]? = some (some f) :=
    Array.getElem?_setIfInBounds_self_of_lt found.lt_size
  obtain ⟨unknown, rfl⟩ | ⟨old, merged, holds, merge, rfl⟩ := runs_arrive run
  · exact ⟨none, some frame, unknown, rfl, stores unknown frame⟩
  · refine ⟨some old, some merged, holds, ?_, ?_⟩
    · simp [Frame.meetAll, Frame.meet, merge, bind, Except.bind, pure, Except.pure]
    · split
      · rename_i same
        rw [same]
        exact holds
      · exact stores holds merged

/-- By induction on the items: each turn brings its own frames. -/
theorem forM_brings (holds : Solver → Prop) {items : List α} {body : α → Solving Unit} {sent : α → List Frame}
    (each : ∀ item ∈ items, ∀ s s', holds s → Runs (body item) s () s' → Brings pc (sent item) s s' ∧ holds s')
    (initial : holds s) (inside : pc < s.graph.frames.size) (run : Runs (items.forM body) s u s') :
    Brings pc (items.flatMap sent) s s' := by
  induction items generalizing s with
  | nil =>
    rw [runs_forM_nil.mp run]
    exact .nothing inside rfl
  | cons item rest ih =>
    obtain ⟨mid, first, others⟩ := runs_forM_cons.mp run
    obtain ⟨brings, later⟩ := each item (.head _) s mid initial first
    have inside' : pc < mid.graph.frames.size := by
      obtain ⟨_, _, _, _, after⟩ := brings
      exact after.lt_size
    rw [List.flatMap_cons]
    exact brings.append (ih (fun item member => each item (.tail _ member)) later inside' others)

/-- An edge brings frames to its own target only. -/
theorem follow_brings (laid : s.graph.Laid m) (atTarget : s.graph.blocks[t]? = some next)
    (inside : next.pc < s.graph.frames.size) {edge : Edge} (run : Runs (follow frames last edge) s u s') :
    Brings next.pc (if edge.target = t then edge.kind.sent next.pc frames last else []) s s' := by
  split
  · rename_i here
    obtain ⟨target, found, other⟩ := runs_follow run
    cases atTarget.some_unique (here ▸ found)
    obtain ⟨types, kind, catches⟩ | ⟨entry, kind, rfl⟩ | ⟨flow, noReturn, arrival⟩ := other
    · rw [kind, EdgeKind.sent, ← List.flatMap_singleton' (frames.map _), List.flatMap_map]
      exact forM_brings (fun _ => True) (fun _ _ _ _ _ step => ⟨arrive_brings (runs_catch step), trivial⟩) trivial
        inside catches
    · rw [kind]
      exact .nothing inside rfl
    · have noReturn' : edge.kind.isReturn = false := by
        cases kind : edge.kind with
        | leaveSub entry => exact absurd kind (noReturn entry)
        | _ => rfl
      rw [EdgeKind.sent_eq flow noReturn']
      exact arrive_brings arrival
  · rename_i elsewhere
    refine .nothing inside (follow_elsewhere (fun target found same => ?_) run)
    exact absurd (laid.eq_of_start found atTarget same) elsewhere

/-- What every step of a loop on the way to a graph keeps, the loop keeps. -/
theorem forM_keeps_towards (holds : Solver → Prop) {items : List α} {body : α → Solving Unit}
    (moves : ∀ item s s', Runs (body item) s () s' → Moves s s')
    (each : ∀ item ∈ items, ∀ s s', holds s → Continues s'.graph final → Runs (body item) s () s' → holds s')
    (initial : holds s) (continues : Continues s'.graph final) (run : Runs (items.forM body) s u s') : holds s' := by
  induction items generalizing s with
  | nil =>
    rw [runs_forM_nil.mp run]
    exact initial
  | cons item rest ih =>
    obtain ⟨mid, first, others⟩ := runs_forM_cons.mp run
    exact ih (fun item member => each item (.tail _ member))
      (each item (.head _) s mid initial ((moves_forM moves others).continues.trans continues) first) others

/-- A return that got a frame to the block would have left its edge. -/
theorem step_unreturned (ofMethod : built.Built m) (steady : Steady m built s.graph)
    (found : built.blocks[b]? = some block) (atTarget : s.graph.blocks[t]? = some next) (unreturned : final.Unreturned t)
    {o : Operation} {frame after : Frame} (run : Runs (step b o frame) s after s')
    (continues : Continues s'.graph final) : s'.graph.frames[next.pc]? = s.graph.frames[next.pc]? := by
  obtain ⟨_, ⟨_, _, returns⟩ | ⟨_, rfl⟩⟩ := runs_step run
  · obtain ⟨_, rfl⟩ | ⟨entry, _, ⟨_, rfl⟩ | ⟨entryFrame, _, calls⟩⟩ := runs_returnToCalls returns
    · rfl
    · rfl
    · have inside : ∀ site ∈ callSites s.graph entry, site < m.ops.length :=
        fun site => callSite_lt (steady.laid ofMethod)
      have kept := forM_keeps_towards
        (fun mid => Steady m built mid.graph ∧ SameCode s.graph mid.graph ∧
          mid.graph.frames[next.pc]? = s.graph.frames[next.pc]?)
        (fun _ _ _ => moves_returnTo)
        (fun site member mid mid' before toEnd first => by
          refine ⟨(returnTo_safe ofMethod before.1 found (inside site member)).of_run first,
            before.2.1.trans (moves_returnTo first).continues.toSameCode, ?_⟩
          obtain ⟨_, rfl⟩ | ⟨call, target, linked, _, after, link, arrival⟩ := runs_returnTo first
          · exact before.2.2
          · obtain ⟨other, atOther, _, start⟩ := eq_some_of_blockAt after
            have different : site + 1 ≠ next.pc := by
              intro same
              obtain ⟨next', atTarget', start', _⟩ := before.2.1.block atTarget
              have here : target = t := (before.1.laid ofMethod).eq_of_start atOther atTarget'
                (start.trans (same.trans start'.symm))
              obtain ⟨_, found', _⟩ := before.1.toSameCode.block found
              obtain ⟨edge, inEdges, used, _, toTarget, kind⟩ :=
                ((moves_arrive arrival).continues.trans toEnd).hasReturn
                  (hasReturn_of_linkReturn before.1.wired found' link)
              have noReturn := unreturned edge inEdges used (toTarget.trans here)
              rw [kind] at noReturn
              cases noReturn
            rw [arrive_elsewhere different arrival, linkReturn_frames link]
            exact before.2.2)
        ⟨steady, .refl _, rfl⟩ continues calls
      exact kept.2.2
  · rfl

namespace Visit

variable (visit : Visit m built params b block s s')

include visit

theorem through : visit.first.through block.ops = .ok (visit.frames ++ [visit.ready], visit.out) := by
  rw [visit.whole]
  exact Frame.through_snoc visit.traces.through (runs_step visit.stepped).1

/-- To a block that no return leads to, a visit brings what it sends along its edges. -/
theorem brings (ofMethod : built.Built m) (steady : Steady m built s.graph) (continues : Continues s'.graph final)
    (atTarget : s.graph.blocks[t]? = some next) (unreturned : final.Unreturned t) :
    Brings next.pc (visit.outs.flatMap fun out =>
      if out.2.target = t then out.2.kind.sent next.pc (visit.frames ++ [visit.ready]) visit.out else []) s s' := by
  have laid := steady.laid ofMethod
  have starts : s.graph.StartsAt next.pc := ⟨next, Array.mem_of_getElem? atTarget, rfl⟩
  have passed := visit.notes.elsewhere next.pc (outside_of_startsAt laid visit.found starts)
  have follows := (moves_forM (fun _ _ _ => moves_follow) visit.follows).continues
  obtain ⟨block₀, found₀, _⟩ := steady.toSameCode.symm.block visit.found
  have atTarget' : visit.passed.graph.blocks[t]? = some next := by
    rw [visit.notes.graph]
    exact atTarget
  have returned := step_unreturned ofMethod visit.steady found₀ atTarget' unreturned visit.stepped
    (follows.trans continues)
  refine Brings.congr_left ?_ (returned.trans passed)
  obtain ⟨next', atNext, start, _⟩ := (moves_step visit.stepped).continues.toSameCode.block atTarget'
  have inside : next.pc < visit.returned.graph.frames.size := by
    rw [visit.sound.size, ofMethod.frames, Array.size_replicate]
    exact laid.pc_lt atTarget
  rw [← start] at inside ⊢
  refine forM_brings (fun mid => SameCode visit.returned.graph mid.graph ∧ next'.pc < mid.graph.frames.size) ?_
    ⟨.refl _, inside⟩ inside visit.follows
  intro out member mid mid' before step
  obtain ⟨next'', atNext'', start'', _⟩ := before.1.block atNext
  have laid' := ofMethod.toLaid.congr (visit.sound.toSameCode.trans before.1)
  rw [← start''] at before ⊢
  have moved := (moves_follow step).continues
  exact ⟨follow_brings laid' atNext'' before.2 step, before.1.trans moved.toSameCode, moved.size ▸ before.2⟩

theorem found_returned : ∃ block', visit.returned.graph.blocks[b]? = some block' ∧ block'.ops = block.ops := by
  have found : visit.passed.graph.blocks[b]? = some block := by
    rw [visit.notes.graph]
    exact visit.found
  obtain ⟨block', found', _, ops, _⟩ := (moves_step visit.stepped).continues.toSameCode.block found
  exact ⟨block', found', ops⟩

theorem mem_outs {edge : Edge} : (e, edge) ∈ visit.outs ↔
    visit.returned.graph.edges[e]? = some edge ∧ edge.removed = false ∧ edge.source = b := by
  obtain ⟨_, found, _⟩ := visit.found_returned
  exact visit.sound.wired.mem_outs_iff found visit.leaving

theorem toFinal (continues : Continues s'.graph final) : Continues visit.returned.graph final :=
  (moves_forM (fun _ _ _ => moves_follow) visit.follows).continues.trans continues

/-- Edges that are no returns are there from the beginning, so that every visit sends along all of them. -/
theorem mem_sent (continues : Continues s'.graph final) (atTarget : final.blocks[t]? = some next) {f : Frame} :
    (f ∈ visit.outs.flatMap fun out =>
      if out.2.target = t then out.2.kind.sent next.pc (visit.frames ++ [visit.ready]) visit.out else []) ↔
      final.Sends b t visit.first f := by
  have toFinal := visit.toFinal continues
  obtain ⟨block', found', ops⟩ := visit.found_returned
  obtain ⟨last, atLast, _, ops', _⟩ := toFinal.toSameCode.block found'
  have through : visit.first.through last.ops = .ok (visit.frames ++ [visit.ready], visit.out) := by
    rw [ops', ops]
    exact visit.through
  rw [List.mem_flatMap]
  constructor
  · rintro ⟨⟨e, edge⟩, member, sent⟩
    obtain ⟨atEdge, used, source⟩ := visit.mem_outs.mp member
    obtain ⟨back, atEdge'⟩ := toFinal.edges e edge atEdge
    split at sent
    · exact ⟨last, next, _, _, { edge with back }, atLast, atTarget, through, Array.mem_of_getElem? atEdge', used, source,
        ‹_›, sent⟩
    · cases sent
  · rintro ⟨last', next', frames, out, edge, atLast', atTarget', through', inEdges, used, source, toTarget, sent⟩
    cases atLast.some_unique atLast'
    cases atTarget.some_unique atTarget'
    cases through.ok_unique through'
    obtain ⟨e, atEdge⟩ := Array.mem_iff_getElem?.mp inEdges
    rcases (visit.sound.toContinues.trans toFinal).added e edge atEdge with ⟨entry, returns⟩ | ⟨back, atBuilt⟩
    · rw [returns] at sent
      cases sent
    · obtain ⟨back', atEdge'⟩ := visit.sound.edges e _ atBuilt
      refine ⟨(e, { edge with back := back' }), visit.mem_outs.mpr ⟨atEdge', used, source⟩, ?_⟩
      rw [if_pos toTarget]
      exact sent

/-- Along a single edge a visit sends the frame behind the block, and nothing else. -/
theorem sent_single (continues : Continues s'.graph final) (single : final.Single e b t) :
    (visit.outs.flatMap fun out =>
      if out.2.target = t then out.2.kind.sent pc (visit.frames ++ [visit.ready]) visit.out else []) = [visit.out] := by
  have toFinal := visit.toFinal continues
  obtain ⟨edge, atEdge, used, source, toTarget⟩ := single.joins
  obtain ⟨flow, noReturn⟩ := single.flow edge atEdge
  have member : ∃ back, (e, { edge with back }) ∈ visit.outs := by
    obtain ⟨entry, returns⟩ | ⟨back, atBuilt⟩ := (visit.sound.toContinues.trans toFinal).added e edge atEdge
    · rw [returns] at noReturn
      cases noReturn
    · obtain ⟨back', atReturned⟩ := visit.sound.edges e _ atBuilt
      exact ⟨back', visit.mem_outs.mpr ⟨atReturned, used, source⟩⟩
  have once : (visit.outs.map Prod.fst).Nodup := by
    obtain ⟨_, found, _⟩ := visit.found_returned
    rw [((outs_eq_ok found).mp visit.leaving).1, ← outsOf_eq found]
    exact visit.sound.wired.outs_nodup b
  have others (out : EdgeId × Edge) (listed : out ∈ visit.outs) (different : out.1 ≠ e) : out.2.target ≠ t := by
    intro same
    obtain ⟨atOut, used', _⟩ := visit.mem_outs.mp listed
    obtain ⟨_, atOut'⟩ := toFinal.edges out.1 out.2 atOut
    exact different (single.only out.1 out.2.source ⟨_, atOut', used', rfl, same⟩)
  obtain ⟨back, member⟩ := member
  rw [flatMap_eq_of_unique once member fun out listed different => if_neg (others out listed different), if_pos toTarget]
  exact EdgeKind.sent_eq flow noReturn ..

end Visit

section Propagate

variable (ofMethod : built.Built m) (sound : Sound m built params none s.graph) (steady : Steady m built s.graph)
  (reachable : s.graph.Reachable b) (run : Runs (propagate b) s u s') (continues : Continues s'.graph final)
  (atTarget : final.blocks[t]? = some next)

include ofMethod sound steady reachable run continues atTarget

/-- A visit brings a block exactly what is sent along its edges. -/
theorem propagate_brings (unreturned : final.Unreturned t) :
    ∃ frames, Brings next.pc frames s s' ∧
      ∀ f, f ∈ frames ↔ ∃ block first, final.blocks[b]? = some block ∧ s.graph.Holds block.pc first ∧
        final.Sends b t first f := by
  have toEnd := (moves_propagate run).continues.trans continues
  obtain ⟨block, found, _⟩ := sound.live ofMethod reachable
  obtain ⟨last, atLast, start, _⟩ := toEnd.toSameCode.block found
  obtain ⟨target, found', start', _⟩ := toEnd.toSameCode.symm.block atTarget
  obtain ⟨unknown, rfl⟩ | ⟨⟨visit⟩⟩ := Visit.of_run ofMethod sound steady reachable found run
  · refine ⟨[], .nothing ?_ rfl, fun f => ⟨fun member => absurd member List.not_mem_nil, ?_⟩⟩
    · rw [steady.frames_size ofMethod, ← start']
      exact (steady.laid ofMethod).pc_lt found'
    · rintro ⟨last', first, atLast', holds, _⟩
      cases atLast.some_unique atLast'
      rw [start] at holds
      cases unknown.symm.trans holds
  · have brings := visit.brings ofMethod steady continues found' unreturned
    rw [start'] at brings
    refine ⟨_, brings, fun f => (visit.mem_sent continues atTarget).trans ⟨fun sends => ?_, ?_⟩⟩
    · exact ⟨last, visit.first, atLast, start ▸ visit.holds, sends⟩
    · rintro ⟨last', first, atLast', holds, sends⟩
      cases atLast.some_unique atLast'
      rw [start] at holds
      cases visit.holds.symm.trans holds
      exact sends

/-- A block with one way in is handed what stands behind the block before it. -/
theorem propagate_hands (single : final.Single e b t) : Brings next.pc (s.graph.behind? b).toList s s' := by
  have toEnd := (moves_propagate run).continues.trans continues
  obtain ⟨block, found, _⟩ := sound.live ofMethod reachable
  obtain ⟨target, found', start', _⟩ := toEnd.toSameCode.symm.block atTarget
  obtain ⟨unknown, rfl⟩ | ⟨⟨visit⟩⟩ := Visit.of_run ofMethod sound steady reachable found run
  · rw [behind?_eq_none found unknown]
    refine .nothing ?_ rfl
    rw [steady.frames_size ofMethod, ← start']
    exact (steady.laid ofMethod).pc_lt found'
  · have brings := visit.brings ofMethod steady continues found' single.unreturned
    rw [visit.sent_single continues single, start'] at brings
    rwa [behind?_eq found visit.holds visit.through]

end Propagate

end Solver

end Unstack
