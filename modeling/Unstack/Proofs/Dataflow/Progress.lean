import Mathlib.Algebra.Order.BigOperators.Group.Finset
import Mathlib.Data.Finset.Prod
import Mathlib.Data.Prod.Lex
import Unstack.Proofs.Dataflow.Safe
import Unstack.Proofs.Frame.Slack

namespace Unstack

variable {entry : Nat} {o : Operation} {target : BlockId}

namespace Graph

/-- A block starts at the operation. -/
def StartsAt (g : Graph) (pc : Nat) : Prop := ∃ block ∈ g.blocks, block.pc = pc

instance (g : Graph) (pc : Nat) : Decidable (g.StartsAt pc) :=
  inferInstanceAs (Decidable (∃ block ∈ g.blocks, block.pc = pc))

instance (g : Graph) (pc : Nat) : Decidable (g.Known pc) :=
  decidable_of_iff ((g.frames[pc]?).join.isSome) (by
    rcases found : g.frames[pc]? with _ | _ | f <;> simp [Known, Holds, found])

/-- The return from a subroutine has its edge. -/
def HasReturn (g : Graph) (b target : BlockId) (entry : Nat) : Prop :=
  ∃ edge ∈ g.edges, edge.removed = false ∧ edge.source = b ∧ edge.target = target ∧ edge.kind = .leaveSub entry

instance (g : Graph) (b target : BlockId) (entry : Nat) : Decidable (g.HasReturn b target entry) :=
  inferInstanceAs (Decidable (∃ edge ∈ g.edges, _))

/-- The operations without a frame, and the returns without an edge. -/
def missing (g : Graph) (m : MethodInput) (built : Graph) : Nat :=
  ((Finset.range m.ops.length).filter fun pc => ¬ g.Known pc).card +
    ((Finset.range built.size ×ˢ Finset.range built.size ×ˢ Finset.range m.ops.length).filter
      fun (b, target, entry) => ¬ g.HasReturn b target entry).card

def slackAt (g : Graph) (pc : Nat) : Nat :=
  match g.frames[pc]? with
  | some (some f) => f.slack pc
  | _ => 0

/-- How often frames at the starts of blocks can still change. -/
def slack (g : Graph) (m : MethodInput) (built : Graph) : Nat :=
  ∑ pc ∈ (Finset.range m.ops.length).filter built.StartsAt, g.slackAt pc

/-- What is left to find counts first. Whenever something is found, a frame with any slack may come with it. -/
def remaining (g : Graph) (m : MethodInput) (built : Graph) : ℕ ×ₗ ℕ := toLex (g.missing m built, g.slack m built)

section Remaining

variable {m : MethodInput} {built g g' : Graph} {pc : Nat} {f old : Frame}

theorem slackAt_of_holds (holds : g.Holds pc f) : g.slackAt pc = f.slack pc := by
  unfold slackAt
  rw [holds]

theorem Continues.hasReturn (continues : Continues g g') {b : BlockId} (returns : g.HasReturn b target entry) :
    g'.HasReturn b target entry := by
  obtain ⟨edge, member, used, source, toTarget, kind⟩ := returns
  obtain ⟨e, found⟩ := Array.mem_iff_getElem?.mp member
  obtain ⟨back, found'⟩ := continues.edges e edge found
  exact ⟨_, Array.mem_of_getElem? found', used, source, toTarget, kind⟩

theorem card_filter_lt {α : Type} {s : Finset α} {p q : α → Prop} [DecidablePred p] [DecidablePred q]
    (weaker : ∀ x, q x → p x) {x : α} (member : x ∈ s) (before : p x) (after : ¬ q x) :
    (s.filter q).card < (s.filter p).card := by
  have part : s.filter q ⊆ s.filter p := Finset.monotone_filter_right s fun x _ => weaker x
  refine Finset.card_lt_card (Finset.ssubset_iff_subset_ne.mpr ⟨part, fun same => after ?_⟩)
  exact (Finset.mem_filter.mp (same ▸ Finset.mem_filter.mpr ⟨member, before⟩)).2

/-- Nothing that is known becomes missing again. -/
theorem missing_le (continues : Continues g g') : g'.missing m built ≤ g.missing m built := by
  refine Nat.add_le_add (Finset.card_le_card ?_) (Finset.card_le_card ?_)
  · exact Finset.monotone_filter_right _ fun pc _ unknown known => unknown (continues.known pc known)
  · exact Finset.monotone_filter_right _ fun _ _ without returns => without (continues.hasReturn returns)

/-- The first frame of an operation makes one less missing. -/
theorem missing_lt_of_known (continues : Continues g g') (inside : pc < m.ops.length) (unknown : ¬ g.Known pc)
    (known : g'.Known pc) : g'.missing m built < g.missing m built := by
  refine Nat.add_lt_add_of_lt_of_le ?_ (Finset.card_le_card ?_)
  · exact card_filter_lt (fun pc unknown known => unknown (continues.known pc known)) (Finset.mem_range.mpr inside) unknown
      (not_not_intro known)
  · exact Finset.monotone_filter_right _ fun _ _ without returns => without (continues.hasReturn returns)

/-- A new edge back makes one less missing. -/
theorem missing_lt_of_return (continues : Continues g g') {b : BlockId} (source : b < built.size)
    (toTarget : target < built.size) (inside : entry < m.ops.length) (without : ¬ g.HasReturn b target entry)
    (returns : g'.HasReturn b target entry) : g'.missing m built < g.missing m built := by
  refine Nat.add_lt_add_of_le_of_lt (Finset.card_le_card ?_) ?_
  · exact Finset.monotone_filter_right _ fun pc _ unknown known => unknown (continues.known pc known)
  · refine card_filter_lt (x := (b, target, entry)) (fun _ without returns => without (continues.hasReturn returns)) ?_
      without (not_not_intro returns)
    simp only [Finset.mem_product, Finset.mem_range]
    exact ⟨source, toTarget, inside⟩

theorem remaining_lt_of_missing (fewer : g'.missing m built < g.missing m built) :
    g'.remaining m built < g.remaining m built :=
  Prod.Lex.toLex_lt_toLex.mpr (.inl fewer)

/-- Where the starts of blocks keep their frames, what is left does not become more. -/
theorem remaining_le (continues : Continues g g')
    (starts : ∀ pc, built.StartsAt pc → g'.frames[pc]? = g.frames[pc]?) : g'.remaining m built ≤ g.remaining m built := by
  have slack : g'.slack m built = g.slack m built := by
    refine Finset.sum_congr rfl fun pc member => ?_
    unfold slackAt
    rw [starts pc (Finset.mem_filter.mp member).2]
  refine Prod.Lex.toLex_le_toLex.mpr ?_
  rw [slack]
  rcases (missing_le continues : g'.missing m built ≤ _).lt_or_eq with fewer | same
  · exact .inl fewer
  · exact .inr ⟨same, le_rfl⟩

/-- A frame at the start of a block that takes up another one. -/
theorem remaining_lt_of_raise (inside : pc < g.frames.size) (within : pc < m.ops.length) (starts : built.StartsAt pc)
    (holds : g.Holds pc old) (raised : f.slack pc < old.slack pc) :
    (g.withFrame pc f).remaining m built < g.remaining m built := by
  have here : (g.withFrame pc f).slackAt pc < g.slackAt pc := by
    have holds' : (g.withFrame pc f).Holds pc f := (withFrame_holds inside f).mpr (by rw [if_pos rfl])
    rwa [slackAt_of_holds holds, slackAt_of_holds holds']
  have less : (g.withFrame pc f).slack m built < g.slack m built := by
    refine Finset.sum_lt_sum (fun p _ => ?_) ⟨pc, Finset.mem_filter.mpr ⟨Finset.mem_range.mpr within, starts⟩, here⟩
    by_cases same : pc = p
    · exact same ▸ here.le
    · unfold slackAt withFrame
      rw [Array.getElem?_setIfInBounds_ne same]
  refine Prod.Lex.toLex_lt_toLex.mpr ?_
  rcases (missing_le (.withFrame inside f) : (g.withFrame pc f).missing m built ≤ _).lt_or_eq with fewer | same
  · exact .inl fewer
  · exact .inr ⟨same, less⟩

end Remaining

end Graph

/-- The frames inside the block are made by its operations from the one at its start. -/
def Graph.Settled (g : Graph) (block : Block) : Prop :=
  ∀ entry, g.Holds block.pc entry → ∃ frames last, g.Traces block.ops entry frames last

namespace Graph.Traces

variable {g g' : Graph} {ops : List Operation} {f last last' : Frame} {frames frames' : List Frame}

theorem congr (traces : g.Traces ops f frames last) (same : ∀ o ∈ ops, g'.frames[o.pc]? = g.frames[o.pc]?) :
    g'.Traces ops f frames last := by
  induction traces with
  | nil f => exact .nil f
  | cons holds executes _ ih =>
    refine .cons ?_ executes (ih fun o member => same o (.tail _ member))
    unfold Graph.Holds
    rwa [same _ (.head _)]

/-- Where frames go through operations depends on the first one only. -/
theorem last_eq (traces : g.Traces ops f frames last) (other : g'.Traces ops f frames' last') : last' = last := by
  induction traces generalizing frames' with
  | nil =>
    cases other
    rfl
  | cons _ executes _ ih =>
    cases other with
    | cons _ executes' others =>
      cases executes.symm.trans executes'
      exact ih others

/-- A trace goes on with the operation that follows. -/
theorem snoc (traces : g.Traces ops f frames last) (holds : g.Holds o.pc last)
    (executes : last.execute o.pc o.instr = .ok last') : g.Traces (ops ++ [o]) f (frames ++ [last]) last' := by
  induction traces with
  | nil => exact .cons holds executes (.nil last')
  | cons holds' executes' _ ih => exact .cons holds' executes' (ih holds executes)

theorem exists_snoc (traces : g.Traces (ops ++ [o]) f frames last) :
    ∃ others before, g.Traces ops f others before ∧ g.Holds o.pc before := by
  induction ops generalizing f frames with
  | nil =>
    cases traces with
    | cons holds => exact ⟨[], f, .nil f, holds⟩
  | cons o' rest ih =>
    cases traces with
    | cons holds executes onward =>
      obtain ⟨others, before, inner, holds'⟩ := ih onward
      exact ⟨f :: others, before, .cons holds executes inner, holds'⟩

end Graph.Traces

namespace Solver

open Unstack.Graph

variable {m : MethodInput} {built : Graph} {s s' s'' : Solver} {b : BlockId} {block : Block} {pc : Nat} {frame : Frame}
  {u : Unit}

/-- Either nothing happens or less is left to find. -/
def Falls (m : MethodInput) (built : Graph) (s s' : Solver) : Prop :=
  s' = s ∨ s'.graph.remaining m built < s.graph.remaining m built

namespace Falls

theorem refl (s : Solver) : Falls m built s s := .inl rfl

theorem trans (first : Falls m built s s') (second : Falls m built s' s'') : Falls m built s s'' := by
  rcases second with rfl | second
  · exact first
  · rcases first with rfl | first
    · exact .inr second
    · exact .inr (second.trans first)

theorem le (falls : Falls m built s s') : s'.graph.remaining m built ≤ s.graph.remaining m built := by
  rcases falls with rfl | less
  · exact le_rfl
  · exact less.le

end Falls

theorem startsAt_of_block (same : SameCode built s.graph) (found : s.graph.blocks[b]? = some block) :
    built.StartsAt block.pc := by
  obtain ⟨old, found', start, _⟩ := same.symm.block found
  exact ⟨old, Array.mem_of_getElem? found', start⟩

theorem lt_size_of_block (same : SameCode built s.graph) (found : s.graph.blocks[b]? = some block) : b < built.size := by
  obtain ⟨old, found', _⟩ := same.symm.block found
  exact found'.lt_size

theorem hasReturn_linked : (s.linked b target entry).graph.HasReturn b target entry := by
  have atEdge := withEdge_edge s.graph b target (.leaveSub entry) s.graph.edges.size
  rw [if_pos rfl] at atEdge
  exact ⟨_, Array.mem_of_getElem? atEdge, rfl, rfl, rfl, rfl⟩

variable (ofMethod : built.Built m) {frames : List Frame} {last : Frame} {blocks : List BlockId}

include ofMethod

/-- A frame that arrives changes nothing or brings the end nearer. -/
theorem arrive_falls (steady : Steady m built s.graph) (starts : built.StartsAt pc)
    (run : Runs (arrive pc frame) s u s') : Falls m built s s' := by
  have inside {known : Option Frame} (found : s.graph.frames[pc]? = some known) :
      pc < s.graph.frames.size ∧ pc < m.ops.length := by
    have place := found.lt_size
    exact ⟨place, by rwa [steady.frames_size ofMethod] at place⟩
  obtain ⟨unknown, rfl⟩ | ⟨old, merged, holds, merge, rfl⟩ := runs_arrive run
  · obtain ⟨place, within⟩ := inside unknown
    refine .inr (remaining_lt_of_missing (missing_lt_of_known (.withFrame place frame) within ?_ ?_))
    · rintro ⟨f, holds⟩
      cases unknown.symm.trans holds
    · exact ⟨frame, (withFrame_holds place frame).mpr (by rw [if_pos rfl])⟩
  · split
    · exact .refl s
    · rename_i changed
      obtain ⟨place, within⟩ := inside holds
      exact .inr (remaining_lt_of_raise place within starts holds (Frame.slack_merge merge changed))

omit ofMethod in
/-- An edge back is there already or brings the end nearer. -/
theorem linkReturn_falls (steady : Steady m built s.graph) {after : Block} (found : s.graph.blocks[b]? = some block)
    (atTarget : s.graph.blocks[target]? = some after) (inside : entry < m.ops.length)
    (run : Runs (linkReturn b target entry) s u s') : Falls m built s s' := by
  obtain ⟨_, _, _, rfl⟩ | ⟨_, _, ⟨outs, leaving, fresh⟩, rfl⟩ := runs_linkReturn run
  · exact .refl s'
  · have without : ¬ s.graph.HasReturn b target entry := by
      rintro ⟨edge, member, used, source, toTarget, kind⟩
      obtain ⟨e, atEdge⟩ := Array.mem_iff_getElem?.mp member
      obtain ⟨listed, edges⟩ := (outs_eq_ok found).mp leaving
      have out : e ∈ s.graph.outsOf b := (steady.wired.mem_outs b e).mpr ⟨_, edge, atEdge, used, source, rfl⟩
      rw [outsOf_eq found, ← listed] at out
      obtain ⟨⟨_, edge'⟩, member', rfl⟩ := List.mem_map.mp out
      cases atEdge.some_unique (edges _ member')
      exact fresh _ member' ⟨toTarget, kind⟩
    exact .inr (remaining_lt_of_missing (missing_lt_of_return (.withEdge ..) (lt_size_of_block steady.toSameCode found)
      (lt_size_of_block steady.toSameCode atTarget) inside without hasReturn_linked))

theorem returnTo_falls (steady : Steady m built s.graph) (found : built.blocks[b]? = some block) {site : Nat}
    {entryFrame : Frame} (inside : entry < m.ops.length)
    (run : Runs (returnTo b pc entry frame entryFrame site) s u s') : Falls m built s s' := by
  obtain ⟨_, rfl⟩ | ⟨call, target, mid, _, after, link, arrival⟩ := runs_returnTo run
  · exact .refl s'
  · obtain ⟨next, atTarget, _, start⟩ := eq_some_of_blockAt after
    obtain ⟨_, found', _⟩ := steady.toSameCode.block found
    have steady' : Steady m built mid.graph :=
      (linkReturn_safe steady entry (steady.live ofMethod found') (steady.live ofMethod atTarget)).of_run link
    have starts : built.StartsAt (site + 1) := start ▸ startsAt_of_block steady.toSameCode atTarget
    exact (linkReturn_falls steady found' atTarget inside link).trans (arrive_falls ofMethod steady' starts arrival)

/-- Returning to all calls never takes the measure up. -/
theorem returnToCalls_falls (steady : Steady m built s.graph) (found : built.blocks[b]? = some block)
    (within : frame.Within m) (run : Runs (returnToCalls b pc frame) s u s') : Falls m built s s' := by
  obtain ⟨_, rfl⟩ | ⟨entry, innermost, ⟨_, rfl⟩ | ⟨entryFrame, _, calls⟩⟩ := runs_returnToCalls run
  · exact .refl s'
  · exact .refl s'
  · have inside := within entry (List.mem_of_getLast? innermost)
    have kept := forM_keeps (fun mid => Steady m built mid.graph ∧ Falls m built s mid)
      (fun site member mid next before step =>
        ⟨(returnTo_safe ofMethod before.1 found (callSite_lt (steady.laid ofMethod) member)).of_run step,
          before.2.trans (returnTo_falls ofMethod before.1 found inside step)⟩)
      ⟨steady, .refl s⟩ calls
    exact kept.2

theorem step_falls (steady : Steady m built s.graph) (found : built.blocks[b]? = some block) (within : frame.Within m)
    {next : Frame} (run : Runs (step b o frame) s next s') : Falls m built s s' := by
  obtain ⟨_, ⟨_, _, returns⟩ | ⟨_, rfl⟩⟩ := runs_step run
  · exact returnToCalls_falls ofMethod steady found within returns
  · exact .refl s'

/-- Neither does an edge that is followed. -/
theorem follow_falls (steady : Steady m built s.graph) {edge : Edge} (each : ∀ f ∈ frames, f.Within m)
    (run : Runs (follow frames last edge) s u s') : Falls m built s s' := by
  obtain ⟨target, found, other⟩ := runs_follow run
  have starts := startsAt_of_block steady.toSameCode found
  have inside := (steady.laid ofMethod).pc_lt found
  obtain ⟨_, _, catches⟩ | ⟨_, _, rfl⟩ | ⟨_, _, arrival⟩ := other
  · have kept := forM_keeps (fun mid => Steady m built mid.graph ∧ Falls m built s mid)
      (fun f member mid next before step =>
        have arrival := runs_catch step
        ⟨(arrive_safe ofMethod before.1 inside ((each f member).withStack _)).of_run arrival,
          before.2.trans (arrive_falls ofMethod before.1 starts arrival)⟩)
      ⟨steady, .refl s⟩ catches
    exact kept.2
  · exact .refl s'
  · exact arrive_falls ofMethod steady starts arrival

omit ofMethod

/-- Only frames between two operations were replaced. -/
structure Notes (first stop : Nat) (s s' : Solver) : Prop where
  graph : s'.graph = { s.graph with frames := s'.graph.frames }
  edges : s'.edgesChanged = s.edgesChanged
  elsewhere (pc : Nat) : pc < first ∨ stop ≤ pc → s'.graph.frames[pc]? = s.graph.frames[pc]?

namespace Notes

variable {first first' stop : Nat}

theorem refl (s : Solver) : Notes first stop s s := ⟨rfl, rfl, fun _ _ => rfl⟩

theorem trans (notes : Notes first stop s s') (more : Notes first' stop s' s'') (later : first ≤ first') :
    Notes first stop s s'' where
  graph := by rw [more.graph, notes.graph]
  edges := more.edges.trans notes.edges
  elsewhere pc outside := by
    rw [more.elsewhere pc (outside.imp_left fun below => Nat.lt_of_lt_of_le below later), notes.elsewhere pc outside]

theorem record (lower : first ≤ pc) (upper : pc < stop) (run : Runs (record pc frame) s u s') :
    Notes first stop s s' := by
  obtain ⟨_, rfl⟩ | ⟨_, inside, rfl⟩ := runs_record run
  · exact .refl s'
  · refine ⟨rfl, rfl, fun p outside => Array.getElem?_setIfInBounds_ne ?_⟩
    omega

end Notes

theorem holds_of_record (run : Runs (record pc frame) s u s') : s'.graph.Holds pc frame := by
  obtain ⟨holds, rfl⟩ | ⟨_, inside, rfl⟩ := runs_record run
  · exact holds
  · exact (withFrame_holds inside frame).mpr (by rw [if_pos rfl])

theorem record_of_holds (holds : s.graph.Holds pc frame) (run : Runs (record pc frame) s u s') : s' = s := by
  obtain ⟨_, rfl⟩ | ⟨other, _⟩ := runs_record run
  · rfl
  · exact absurd holds other

/-- No other block starts inside a block. -/
theorem outside_of_startsAt {g : Graph} (laid : g.Laid m) (found : g.blocks[b]? = some block) (starts : g.StartsAt pc) :
    pc < block.pc + 1 ∨ block.stop ≤ pc := by
  obtain ⟨other, member, rfl⟩ := starts
  obtain ⟨c, found'⟩ := Array.mem_iff_getElem?.mp member
  have positive := List.length_pos_iff.mpr (laid.segment c other found').1
  by_contra inner
  have same := laid.apart b c block other other.pc found found' (by omega) (by omega) (Nat.le_refl _)
    (by unfold Block.stop; omega)
  subst same
  cases found.some_unique found'
  omega

/-- Frames inside a block do not count for the measure. -/
theorem Notes.remaining_le {first : Nat} (notes : Notes first block.stop s s') (inner : block.pc < first)
    (laid : built.Laid m) (found : built.blocks[b]? = some block) (moves : Moves s s') :
    s'.graph.remaining m built ≤ s.graph.remaining m built := by
  refine Graph.remaining_le moves.continues fun pc starts => notes.elsewhere pc ?_
  exact (outside_of_startsAt laid found starts).imp_left fun below => by omega

/-- Notes in one block leave the other blocks settled. -/
theorem Notes.settled (notes : Notes (block.pc + 1) block.stop s s') (laid : built.Laid m)
    (found : built.blocks[b]? = some block) {c : BlockId} {other : Block} (found' : built.blocks[c]? = some other)
    (different : c ≠ b) (settled : s.graph.Settled other) : s'.graph.Settled other := by
  have outside (p : Nat) (lower : other.pc ≤ p) (upper : p < other.stop) : s'.graph.frames[p]? = s.graph.frames[p]? := by
    refine notes.elsewhere p ?_
    by_contra inner
    exact different (laid.apart b c block other p found found' (by omega) (by omega) lower upper).symm
  have positive := List.length_pos_iff.mpr (laid.segment c other found').1
  intro entry holds
  unfold Graph.Holds at holds
  rw [outside other.pc (Nat.le_refl _) (by unfold Block.stop; omega)] at holds
  obtain ⟨frames, last, traces⟩ := settled entry holds
  refine ⟨frames, last, traces.congr fun o member => ?_⟩
  obtain ⟨i, atIndex⟩ := List.mem_iff_getElem?.mp member
  have inside := atIndex.lt_length
  have atPc := laid.op_pc found' atIndex
  exact outside o.pc (by omega) (by unfold Block.stop; omega)

section Recorded

variable (laid : built.Laid m) (found : built.blocks[b]? = some block)

include laid found

theorem record_notes {i : Nat} (here : block.ops[i]? = some o) (first : i = 0 → s.graph.Holds block.pc frame)
    (run : Runs (record o.pc frame) s u s') : Notes (block.pc + max 1 i) block.stop s s' := by
  have pc := laid.op_pc found here
  have inside := here.lt_length
  rcases Nat.eq_zero_or_pos i with zero | positive
  · -- the frame at the start of the block is the one that goes through it
    have holds : s.graph.Holds o.pc frame := by
      rw [pc, zero]
      exact first zero
    rw [record_of_holds holds run]
    exact .refl s
  · exact .record (by omega) (by unfold Block.stop; omega) run

/-- By induction on the operations that are left, from the one with index `i` on. As long as none of them returns from a
subroutine, only their frames are replaced, and not even these if they were right. -/
theorem run_notes {i : Nat} {ops : List Operation} (part : ops <+: block.ops.drop i)
    (flows : ∀ o ∈ ops, ∀ reg, o.instr ≠ .leaveSub reg) (first : i = 0 → s.graph.Holds block.pc frame)
    (run : Runs (Solver.run b ops frame) s (frames, last) s') :
    Notes (block.pc + max 1 i) block.stop s s' ∧ s'.graph.Traces ops frame frames last ∧
      ((∃ frames last, s.graph.Traces ops frame frames last) → s' = s) := by
  induction ops generalizing s frame frames i with
  | nil =>
    obtain ⟨rfl, rfl, rfl⟩ := runs_run_nil run
    exact ⟨.refl s', .nil last, fun _ => rfl⟩
  | cons o rest ih =>
    obtain ⟨mid, mid', next, others, rfl, recorded, stepped, onward⟩ := runs_run_cons run
    obtain ⟨executes, ⟨reg, leaves, _⟩ | ⟨_, rfl⟩⟩ := runs_step stepped
    · exact absurd leaves (flows o (.head _) reg)
    · obtain ⟨more, whole⟩ := part
      have here : block.ops[i]? = some o := by
        rw [← Nat.add_zero i, ← List.getElem?_drop, ← whole]
        rfl
      have part' : rest <+: block.ops.drop (i + 1) := by
        rw [← List.tail_drop, ← whole]
        exact List.prefix_append rest more
      have noted := record_notes laid found here first recorded
      obtain ⟨notes, traces, again⟩ := ih part' (fun o member => flows o (.tail _ member)) (by omega) onward
      refine ⟨noted.trans notes (by omega), .cons ?_ executes traces, ?_⟩
      · unfold Graph.Holds
        rw [notes.elsewhere o.pc (.inl (by rw [laid.op_pc found here]; omega))]
        exact holds_of_record recorded
      · rintro ⟨_, _, before⟩
        cases before with
        | cons holds executes' onward' =>
          have same := record_of_holds holds recorded
          cases executes.symm.trans executes'
          rw [again (same ▸ ⟨_, _, onward'⟩), same]

/-- All operations of a block but the last one, and the frame that is recorded for that. -/
theorem run_to_last {front : List Operation} (whole : block.ops = front ++ [o]) (holds : s.graph.Holds block.pc frame)
    {f : Frame} {mid : Solver} (run : Runs (Solver.run b front frame) s (frames, f) mid)
    (recorded : Runs (record o.pc f) mid u s') :
    Notes (block.pc + 1) block.stop s s' ∧ s'.graph.Traces front frame frames f ∧ s'.graph.Holds o.pc f ∧
      ((∃ frames last, s.graph.Traces block.ops frame frames last) → s' = s) := by
  have flows : ∀ o ∈ front, ∀ reg, o.instr ≠ .leaveSub reg := by
    intro o member reg leaves
    have inner := laid.flows_inside found (show o ∈ block.ops.dropLast by rwa [whole, List.dropLast_concat])
    rw [leaves] at inner
    cases inner
  have part : front <+: block.ops.drop 0 := by
    rw [whole]
    exact List.prefix_append front [o]
  have here : block.ops[front.length]? = some o := by rw [whole, List.getElem?_concat_length]
  obtain ⟨notes, traces, again⟩ := run_notes laid found part flows (fun _ => holds) run
  have noted := record_notes laid found here (fun empty => by
    cases List.length_eq_zero_iff.mp empty
    obtain ⟨_, rfl, rfl⟩ := runs_run_nil run
    exact holds) recorded
  refine ⟨notes.trans noted (by omega), traces.congr fun other member => ?_, holds_of_record recorded, ?_⟩
  · obtain ⟨j, atIndex⟩ := List.mem_iff_getElem?.mp member
    have inside := atIndex.lt_length
    have pc := laid.op_pc found (show block.ops[j]? = some other by rwa [whole, List.getElem?_append_left inside])
    exact noted.elsewhere other.pc (.inl (by omega))
  · rw [whole]
    rintro ⟨_, _, before⟩
    obtain ⟨_, f', inner, holds'⟩ := before.exists_snoc
    have same := again ⟨_, _, inner⟩
    cases (same ▸ traces).last_eq inner
    rw [record_of_holds (same ▸ holds') recorded, same]

end Recorded

include ofMethod

/-- A block whose first frame stays is settled by one run. -/
theorem run_settles (found : built.blocks[b]? = some block) (steady : Steady m built s.graph)
    (within : frame.Within m) (holds : s.graph.Holds block.pc frame)
    (run : Runs (Solver.run b block.ops frame) s (frames, last) s') :
    s'.graph.remaining m built < s.graph.remaining m built ∨
      (Notes (block.pc + 1) block.stop s s' ∧ s'.graph.Traces block.ops frame frames last ∧
        ((∃ frames last, s.graph.Traces block.ops frame frames last) → s' = s)) := by
  have laid := ofMethod.toLaid
  obtain ⟨front, o, whole⟩ : ∃ front o, block.ops = front ++ [o] :=
    ⟨_, _, (List.dropLast_append_getLast (laid.segment b block found).1).symm⟩
  rw [whole] at run
  obtain ⟨others, f, mid, mid', rfl, inner, recorded, stepped⟩ := runs_run_snoc run
  obtain ⟨notes, traces, holds', again⟩ := run_to_last laid found whole holds inner recorded
  have part : ∀ o ∈ front, o ∈ block.ops := fun o member => by simp [whole, member]
  obtain ⟨steadyMid, _, within'⟩ := (run_safe ofMethod found part steady within).of_run inner
  have steadyMid' : Steady m built mid'.graph :=
    (record_safe ofMethod steadyMid (laid.op_lt found (by simp [whole])) within').of_run recorded
  rcases step_falls ofMethod steadyMid' found within' stepped with rfl | less
  · exact .inr ⟨notes, whole ▸ traces.snoc holds' (runs_step stepped).1, again⟩
  · have le := notes.remaining_le (Nat.lt_succ_self _) laid found ((moves_run inner).trans (moves_record recorded))
    exact .inl (less.trans_le le)

omit ofMethod

/-- Blocks were visited, and nothing new came to the start of a block. -/
structure Calm (built : Graph) (visited : List BlockId) (s s' : Solver) : Prop where
  graph : s'.graph = { s.graph with frames := s'.graph.frames }
  edges : s'.edgesChanged = s.edgesChanged
  starts (pc : Nat) : built.StartsAt pc → s'.graph.frames[pc]? = s.graph.frames[pc]?
  settled (c : BlockId) (other : Block) : built.blocks[c]? = some other → c ∈ visited ∨ s.graph.Settled other →
    s'.graph.Settled other
  again : (∀ c ∈ visited, ∀ other, built.blocks[c]? = some other → s.graph.Settled other) → s' = s

namespace Calm

theorem refl (s : Solver) : Calm built [] s s :=
  ⟨rfl, rfl, fun _ _ => rfl, fun _ _ _ settled => settled.resolve_left List.not_mem_nil, fun _ => rfl⟩

/-- Visits in a row are calm if each of them is. -/
theorem cons {rest : List BlockId} (first : Calm built [b] s s') (others : Calm built rest s' s'') :
    Calm built (b :: rest) s s'' where
  graph := by rw [others.graph, first.graph]
  edges := others.edges.trans first.edges
  starts pc starts := (others.starts pc starts).trans (first.starts pc starts)
  settled c other found settled := by
    refine others.settled c other found ?_
    rcases settled with member | before
    · rcases List.mem_cons.mp member with rfl | member
      · exact .inr (first.settled c other found (.inl (.head _)))
      · exact .inl member
    · exact .inr (first.settled c other found (.inr before))
  again all := by
    have same : s' = s := first.again fun c member => all c (List.mem_singleton.mp member ▸ .head _)
    rw [others.again fun c member => same ▸ all c (.tail b member), same]

theorem remaining_le {visited : List BlockId} (calm : Calm built visited s s') (moves : Moves s s') :
    s'.graph.remaining m built ≤ s.graph.remaining m built :=
  Graph.remaining_le moves.continues calm.starts

theorem of_notes (laid : built.Laid m) (found : built.blocks[b]? = some block)
    (notes : Notes (block.pc + 1) block.stop s s') (settled : s'.graph.Settled block)
    (again : s.graph.Settled block → s' = s) : Calm built [b] s s' where
  graph := notes.graph
  edges := notes.edges
  starts pc starts := notes.elsewhere pc (outside_of_startsAt laid found starts)
  settled c other found' before := by
    by_cases same : c = b
    · subst same
      cases found.some_unique found'
      exact settled
    · exact notes.settled laid found found' same (before.resolve_left fun member => same (List.mem_singleton.mp member))
  again all := again (all b (.head _) block found)

end Calm

include ofMethod

/-- A visit of a block finds something, or it only brings the frames inside the block up to date. -/
theorem propagate_progress (steady : Steady m built s.graph) (found : built.blocks[b]? = some block)
    (run : Runs (propagate b) s u s') :
    s'.graph.remaining m built < s.graph.remaining m built ∨ Calm built [b] s s' := by
  obtain ⟨now, found', other⟩ := runs_propagate run
  obtain ⟨block', found'', start, ops, _⟩ := steady.toSameCode.block found
  cases found'.some_unique found''
  rw [start, ops] at other
  obtain ⟨unknown, rfl⟩ | ⟨entry, frames, last, mid, outs, holds, run, leaving, follows⟩ := other
  · refine .inr (.of_notes ofMethod.toLaid found (.refl s') (fun entry holds => ?_) fun _ => rfl)
    cases unknown.symm.trans holds
  · have within := steady.within _ entry holds
    obtain ⟨steady', each, within'⟩ := (run_safe ofMethod found (fun _ => id) steady within).of_run run
    have falls : Falls m built mid s' := by
      obtain ⟨_, foundMid, _⟩ := steady'.toSameCode.block found
      obtain ⟨outs', leaving', joins⟩ := steady'.wired.leaving foundMid.lt_size
      cases leaving.symm.trans leaving'
      have kept := forM_keeps
        (fun next => Steady m built next.graph ∧ Continues mid.graph next.graph ∧ Falls m built mid next)
        (fun out member next next' before step => by
          obtain ⟨_, atTarget, _⟩ := (steady'.wired.ends_live _ _ _ (joins out member).2).2
          obtain ⟨_, atTarget', _⟩ := before.2.1.toSameCode.block atTarget
          have live := before.1.live ofMethod atTarget'
          exact ⟨(follow_safe ofMethod before.1 live each within').of_run step,
            before.2.1.trans (moves_follow step).continues, before.2.2.trans (follow_falls ofMethod before.1 each step)⟩)
        ⟨steady', .refl _, .refl mid⟩ follows
      exact kept.2.2
    rcases run_settles ofMethod found steady within holds run with
      less | ⟨notes, traces, again⟩
    · exact .inl (falls.le.trans_lt less)
    · rcases falls with rfl | less
      · refine .inr (.of_notes ofMethod.toLaid found notes (fun entry' holds' => ?_) fun settled =>
          again (settled entry holds))
        rw [Graph.Holds, notes.elsewhere block.pc (.inl (by omega))] at holds'
        cases holds.symm.trans holds'
        exact ⟨frames, last, traces⟩
      · exact .inl (less.trans_le (notes.remaining_le (by omega) ofMethod.toLaid found (moves_run run)))

/-- By induction on the blocks of the round. -/
theorem sweep_progress (steady : Steady m built s.graph)
    (inside : ∀ b ∈ blocks, ∃ block, built.blocks[b]? = some block) (run : Runs (blocks.forM propagate) s u s') :
    s'.graph.remaining m built < s.graph.remaining m built ∨ Calm built blocks s s' := by
  induction blocks generalizing s with
  | nil =>
    rw [runs_forM_nil.mp run]
    exact .inr (.refl s)
  | cons b rest ih =>
    obtain ⟨mid, visit, others⟩ := runs_forM_cons.mp run
    obtain ⟨block, found⟩ := inside b (.head _)
    have steady' : Steady m built mid.graph := (propagate_safe ofMethod steady found).of_run visit
    have moves := moves_forM (fun _ _ _ => moves_propagate) others
    rcases propagate_progress ofMethod steady found visit with less | calm
    · rcases ih steady' (fun b member => inside b (.tail _ member)) others with less' | calm'
      · exact .inl (less'.trans less)
      · exact .inl ((calm'.remaining_le moves).trans_lt less)
    · rcases ih steady' (fun b member => inside b (.tail _ member)) others with less' | calm'
      · exact .inl (less'.trans_le (calm.remaining_le (moves_propagate visit)))
      · exact .inr (calm.cons calm')

theorem sweep_steady (steady : Steady m built s.graph) (inside : ∀ b ∈ blocks, ∃ block, built.blocks[b]? = some block)
    (run : Runs (blocks.forM propagate) s u s') : Steady m built s'.graph :=
  forM_keeps (fun mid => Steady m built mid.graph)
    (fun b member _ _ before visit =>
      have ⟨_, found⟩ := inside b member
      (propagate_safe ofMethod before found).of_run visit) steady run

omit ofMethod in
theorem listed_inside (steady : Steady m built s.graph) :
    ∀ b ∈ s.graph.reversePostorder, ∃ block, built.blocks[b]? = some block := by
  intro b member
  obtain ⟨_, found, _⟩ := steady.listed b (List.mem_reverse.mp member)
  obtain ⟨block, found', _⟩ := steady.toSameCode.symm.block found
  exact ⟨block, found'⟩

/-- A round visits all listed blocks; the numbers that it gives them then are no matter of frames. -/
theorem round_sweep (steady : Steady m built s.graph) {changed : Bool} (run : Runs round s changed s') :
    ∃ mid, Runs (s.graph.reversePostorder.forM propagate) ⟨s.graph, false, false⟩ () mid ∧
      changed = (mid.framesChanged || mid.edgesChanged) ∧ Continues mid.graph s'.graph ∧
      s'.graph.frames = mid.graph.frames ∧ (mid.edgesChanged = false → s' = mid) := by
  obtain ⟨mid, sweep, changed, rest⟩ := runs_round run
  refine ⟨mid, sweep, changed, ?_⟩
  split at rest
  · rename_i edges
    obtain ⟨graph, numbered, rfl⟩ := rest
    have steady' := sweep_steady ofMethod (by exact steady) (listed_inside steady) sweep
    obtain ⟨_, numbered', renumbered⟩ := steady'.wired.renumber (steady'.start_lt ofMethod)
    cases numbered.symm.trans numbered'
    exact ⟨renumbered.continues, renumbered.sameBodies.frames, fun none => by simp [edges] at none⟩
  · subst rest
    exact ⟨.refl _, rfl, fun _ => rfl⟩

/-- The frames inside every listed block are up to date. -/
def AllSettled (built : Graph) (s : Solver) : Prop :=
  ∀ b ∈ s.graph.postorder, ∀ block, built.blocks[b]? = some block → s.graph.Settled block

/-- A round that reports a change finds something, or it is the one that brings the frames inside blocks up to date. -/
theorem round_progress (steady : Steady m built s.graph) (run : Runs round s true s') :
    s'.graph.remaining m built < s.graph.remaining m built ∨
      (s'.graph.remaining m built ≤ s.graph.remaining m built ∧ AllSettled built s' ∧ ¬ AllSettled built s) := by
  obtain ⟨mid, sweep, changed, continues, frames, noEdge⟩ := round_sweep ofMethod steady run
  have moves : Moves ⟨s.graph, false, false⟩ mid := moves_forM (fun _ _ _ => moves_propagate) sweep
  rcases sweep_progress ofMethod (by exact steady) (listed_inside steady) sweep with less | calm
  · have le : s'.graph.remaining m built ≤ mid.graph.remaining m built :=
      Graph.remaining_le continues fun _ _ => by rw [frames]
    exact .inl (le.trans_lt less)
  · have same := noEdge calm.edges
    subst same
    have order : s'.graph.postorder = s.graph.postorder := by rw [calm.graph]
    refine .inr ⟨calm.remaining_le moves, fun b member block found => ?_, fun all => ?_⟩
    · rw [order] at member
      exact calm.settled b block found (.inl (List.mem_reverse.mpr member))
    · rw [calm.again fun b member => all b (List.mem_reverse.mp member)] at changed
      cases changed

end Solver

end Unstack
