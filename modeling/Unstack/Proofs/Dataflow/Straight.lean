import Unstack.Proofs.Dataflow.Handover
import Unstack.Proofs.Graph.Postorder

namespace Unstack

variable {left limit : Nat} {blocks : List BlockId} {past : List (BlockId × Graph)}

namespace Solver

open Unstack.Graph

variable {m : MethodInput} {built final : Graph} {params : Frame} {s s' : Solver} {b t : BlockId}
  {block next : Block} {u : Unit}

/-- The visits of blocks, each with the graph that it finds. -/
def visits : List BlockId → Solver → List (BlockId × Graph)
  | [], _ => []
  | b :: rest, s => (b, s.graph) :: (next? (propagate b) s).toList.flatMap (visits rest)

/-- The visits of rounds, as long as these report changes. -/
def visitsIn : Nat → Solver → List (BlockId × Graph)
  | 0, _ => []
  | left + 1, s =>
    visits s.graph.reversePostorder ⟨s.graph, false, false⟩ ++
      match round.run.run s with
      | .ok (.ok true, s') => visitsIn left s'
      | _ => []

theorem visits_cons {rest : List BlockId} (run : Runs (propagate b) s u s') :
    visits (b :: rest) s = (b, s.graph) :: visits rest s' := by
  rw [visits, next?_eq run]
  simp

/-- Each block of a round is visited once, in its order. -/
theorem map_fst_visits (run : Runs (blocks.forM propagate) s u s') : (visits blocks s).map Prod.fst = blocks := by
  induction blocks generalizing s with
  | nil => rfl
  | cons b rest ih =>
    obtain ⟨mid, visit, others⟩ := runs_forM_cons.mp run
    rw [visits_cons visit, List.map_cons, ih others]

theorem visitsIn_true (run : Runs round s true s') :
    visitsIn (left + 1) s = visits s.graph.reversePostorder ⟨s.graph, false, false⟩ ++ visitsIn left s' := by
  rw [visitsIn, show round.run.run s = _ from run]

theorem visitsIn_false (run : Runs round s false s') :
    visitsIn (left + 1) s = visits s.graph.reversePostorder ⟨s.graph, false, false⟩ := by
  rw [visitsIn, show round.run.run s = _ from run, List.append_nil]

/-- A property of the visits so far and of the frames found by them that further visits keep. A block is visited after
those that come before it in the order of the new graph, at least once. -/
structure Kept (m : MethodInput) (built : Graph) (params : Frame) (final : Graph)
    (holds : List (BlockId × Graph) → Graph → Prop) : Prop where
  visit (past : List (BlockId × Graph)) (s s' : Solver) (b : BlockId) : Sound m built params none s.graph →
    Steady m built s.graph → s.graph.Reachable b →
    (∀ c ∈ built.postorder, built.rank b < built.rank c → c ∈ past.map Prod.fst) → Runs (propagate b) s () s' →
    Continues s'.graph final → holds past s.graph → holds (past ++ [(b, s.graph)]) s'.graph
  frames (past : List (BlockId × Graph)) (g g' : Graph) : g'.frames = g.frames → holds past g → holds past g'

theorem mem_of_rank_lt {g : Graph} (once : g.postorder.Nodup) {front behind : List BlockId} {c : BlockId}
    (order : g.reversePostorder = front ++ b :: behind) (listed : c ∈ g.postorder) (later : g.rank b < g.rank c) :
    c ∈ front := by
  have turned : g.postorder = behind.reverse ++ b :: front.reverse := by
    rw [← List.reverse_reverse g.postorder, ← reversePostorder, order]
    simp
  have fresh : b ∉ behind.reverse := by
    rw [turned] at once
    exact fun member => List.disjoint_of_nodup_append once member (.head _)
  unfold rank at later
  rw [turned] at listed later
  rcases List.mem_append.mp listed with member | member
  · rw [List.idxOf_append_of_mem member, List.idxOf_append_of_notMem fresh] at later
    have inside := List.idxOf_lt_length_of_mem member
    omega
  · rcases List.mem_cons.mp member with rfl | member
    · exact absurd later (Nat.lt_irrefl _)
    · exact List.mem_reverse.mp member

section Kept

variable {holds : List (BlockId × Graph) → Graph → Prop} {past : List (BlockId × Graph)} (ofMethod : built.Built m)
  (kept : Kept m built params final holds)

include ofMethod kept

/-- By induction on the blocks of a round that are left. -/
theorem sweep_kept (sound : Sound m built params none s.graph) (steady : Steady m built s.graph)
    (reachable : ∀ b ∈ blocks, s.graph.Reachable b)
    (ordered : ∀ front b behind, blocks = front ++ b :: behind → ∀ c ∈ built.postorder, built.rank b < built.rank c →
      c ∈ past.map Prod.fst ∨ c ∈ front)
    (run : Runs (blocks.forM propagate) s u s') (continues : Continues s'.graph final) (initial : holds past s.graph) :
    holds (past ++ visits blocks s) s'.graph := by
  induction blocks generalizing s past with
  | nil =>
    rw [runs_forM_nil.mp run, visits, List.append_nil]
    exact initial
  | cons b rest ih =>
    obtain ⟨mid, visit, others⟩ := runs_forM_cons.mp run
    have here := reachable b (.head _)
    have toMid := (moves_propagate visit).continues
    have fromMid := (moves_forM (fun _ _ _ => moves_propagate) others).continues.trans continues
    obtain ⟨_, found, _⟩ := sound.live ofMethod here
    obtain ⟨_, found₀, _⟩ := sound.toSameCode.symm.block found
    have earlier : ∀ c ∈ built.postorder, built.rank b < built.rank c → c ∈ past.map Prod.fst :=
      fun c listed later => (ordered [] b rest rfl c listed later).resolve_right List.not_mem_nil
    have visited := kept.visit past s mid b sound steady here earlier visit fromMid initial
    rw [visits_cons visit, List.append_cons]
    refine ih (propagate_sound ofMethod sound here visit) ((propagate_safe ofMethod steady found₀).of_run visit)
      (fun b member => toMid.reachable (reachable b (.tail _ member))) ?_ others visited
    intro front b' behind whole c listed later
    rcases ordered (b :: front) b' behind (by rw [whole]; rfl) c listed later with before | member
    · exact .inl (by simp [before])
    · rcases List.mem_cons.mp member with rfl | member
      · exact .inl (by simp)
      · exact .inr member

/-- By induction on the rounds that are left. -/
theorem rounds_kept (sound : Sound m built params none s.graph) (listed : s.graph.Listed)
    (seen : s.graph.postorder = built.postorder ∨ ∀ c ∈ built.postorder, c ∈ past.map Prod.fst)
    (run : Runs (rounds limit left) s u s') (continues : Continues s'.graph final) (initial : holds past s.graph) :
    holds (past ++ visitsIn left s) s'.graph := by
  induction left generalizing s past with
  | zero => exact absurd run runs_throw
  | succ left ih =>
    obtain ⟨changed, mid, first, run⟩ := runs_bind.mp run
    have ⟨sound', listed', _⟩ := round_sound ofMethod sound listed first
    have steady := sound.steady ofMethod listed
    obtain ⟨swept, sweep, _, toMid, frames, _⟩ := round_sweep ofMethod steady first
    have reachable : ∀ b ∈ s.graph.reversePostorder, s.graph.Reachable b :=
      fun b member => (listed b).mp (List.mem_reverse.mp member)
    have fromMid : Continues mid.graph final := by
      refine Continues.trans ?_ continues
      cases changed with
      | true => exact rounds_continues ofMethod (sound'.steady ofMethod listed') run
      | false =>
        obtain ⟨_, rfl⟩ := runs_pure.mp run
        exact .refl _
    have ordered (front : List BlockId) (b : BlockId) (behind : List BlockId)
        (order : s.graph.reversePostorder = front ++ b :: behind) (c : BlockId) (member : c ∈ built.postorder)
        (later : built.rank b < built.rank c) : c ∈ past.map Prod.fst ∨ c ∈ front := by
      rcases seen with same | all
      · rw [reversePostorder, same] at order
        exact .inr (mem_of_rank_lt ofMethod.once order member later)
      · exact .inl (all c member)
    have swept' := sweep_kept ofMethod kept (by exact sound) (by exact steady) (by exact reachable) ordered sweep
      (toMid.trans fromMid) (by exact initial)
    have after := kept.frames _ _ mid.graph frames swept'
    have all : ∀ c ∈ built.postorder,
        c ∈ (past ++ visits s.graph.reversePostorder ⟨s.graph, false, false⟩).map Prod.fst := by
      intro c member
      rw [List.map_append, map_fst_visits sweep]
      rcases seen with same | all
      · exact List.mem_append_right _ (List.mem_reverse.mpr (same ▸ member))
      · exact List.mem_append_left _ (all c member)
    cases changed with
    | true =>
      rw [visitsIn_true first, ← List.append_assoc]
      exact ih sound' listed' (.inr all) run after
    | false =>
      obtain ⟨_, rfl⟩ := runs_pure.mp run
      rw [visitsIn_false first]
      exact after

end Kept

/-- The frames behind a block at its visits. -/
def handed (b : BlockId) (past : List (BlockId × Graph)) : List Frame :=
  past.filterMap fun visit => if visit.1 = b then visit.2.behind? b else none

theorem mem_handed {f : Frame} : f ∈ handed b past ↔ ∃ mid, (b, mid) ∈ past ∧ mid.behind? b = some f := by
  unfold handed
  rw [List.mem_filterMap]
  constructor
  · rintro ⟨⟨c, mid⟩, member, here⟩
    split at here
    · rename_i same
      exact ⟨mid, same ▸ member, here⟩
    · cases here
  · rintro ⟨mid, member, here⟩
    exact ⟨(b, mid), member, by rw [if_pos rfl, here]⟩

/-- What is known at an operation is what the block has handed over. -/
def Merged (b : BlockId) (pc : Nat) (past : List (BlockId × Graph)) (g : Graph) : Prop :=
  ∃ known, g.frames[pc]? = some known ∧ Frame.meetAll pc none (handed b past) = .ok known

/-- A block with one way in holds the merge of all that it was handed. -/
theorem merged_kept (ofMethod : built.Built m) {e : EdgeId} (single : final.Single e b t)
    (atTarget : final.blocks[t]? = some next) : Kept m built params final (Merged b next.pc) where
  frames past g g' same merged := by
    unfold Merged
    rw [same]
    exact merged
  visit past s s' c sound steady reachable _ run continues merged := by
    obtain ⟨known, before, merged⟩ := merged
    unfold Merged handed
    rw [List.filterMap_append, ← handed]
    by_cases here : c = b
    · subst here
      obtain ⟨known', new, before', meets, after⟩ :=
        propagate_hands ofMethod sound steady reachable run continues atTarget single
      cases before.some_unique before'
      refine ⟨new, after, ?_⟩
      have last : [(c, s.graph)].filterMap (fun visit => if visit.1 = c then visit.2.behind? c else none) =
          (s.graph.behind? c).toList := by cases behind : s.graph.behind? c <;> simp [behind]
      rw [last, Frame.meetAll, List.foldlM_append, ← Frame.meetAll, merged]
      exact meets
    · obtain ⟨frames, brings, sent⟩ :=
        propagate_brings ofMethod sound steady reachable run continues atTarget single.unreturned
      have unchanged := brings.unchanged fun f member => by
        obtain ⟨_, _, _, _, sends⟩ := (sent f).mp member
        obtain ⟨_, joins⟩ := sends.steps
        exact absurd (single.source joins) here
      refine ⟨known, unchanged.trans before, ?_⟩
      have last : [(c, s.graph)].filterMap (fun visit => if visit.1 = b then visit.2.behind? b else none) = [] := by
        simp [here]
      rw [last, List.append_nil]
      exact merged

end Solver

/-- What a trail has gone through leads to its end. -/
theorem Trail.leads {α : Type} {step : α → α → Prop} {start x y : α} {path : List α} (trail : Trail step start y path)
    (member : x ∈ path) : Relation.ReflTransGen step x y := by
  induction trail with
  | start => rw [List.mem_singleton.mp member]
  | step _ one _ ih =>
    rcases List.mem_cons.mp member with rfl | before
    · exact .refl
    · exact (ih before).tail one

namespace Graph

/-- The block can be reached and leads to `b`, or it is `b`. -/
def Upstream (g : Graph) (b c : BlockId) : Prop := g.Reachable c ∧ Relation.ReflTransGen g.Steps c b

/-- Control gets to the block without a loop and without a return from a subroutine. -/
structure Straight (g : Graph) (b : BlockId) : Prop where
  acyclic (c : BlockId) : g.Upstream b c → ¬ Relation.TransGen g.Steps c c
  unreturned (c : BlockId) : g.Upstream b c → g.Unreturned c

section Straight

variable {m : MethodInput} {g built final : Graph} {b c d : BlockId}

/-- What comes before a block upstream is upstream. -/
theorem Upstream.of_step (upstream : g.Upstream b d) (reachable : g.Reachable c) (step : g.Steps c d) : g.Upstream b c :=
  ⟨reachable, .head step upstream.2⟩

/-- A test for graphs in which edges lead from lower numbers to higher ones at first. -/
theorem Straight.of_ascending (ascending : ∀ edge ∈ g.edges, edge.removed = false → edge.target ≤ b →
    edge.source < edge.target ∧ edge.kind.isReturn = false) : g.Straight b := by
  have lower {c d : BlockId} (step : g.Steps c d) (below : d ≤ b) : c < d := by
    obtain ⟨e, edge, atEdge, used, rfl, rfl⟩ := step
    exact (ascending edge (Array.mem_of_getElem? atEdge) used below).1
  have within {c : BlockId} (leads : Relation.ReflTransGen g.Steps c b) : c ≤ b := by
    induction leads using Relation.ReflTransGen.head_induction_on with
    | refl => exact Nat.le_refl b
    | head step _ ih => exact (lower step ih).le.trans ih
  refine ⟨fun c upstream cycle => ?_, fun c upstream edge inEdges used toTarget => ?_⟩
  · have rises {d : BlockId} (way : Relation.TransGen g.Steps c d) (below : d ≤ b) : c < d := by
      induction way with
      | single step => exact lower step below
      | tail _ step ih =>
        have last := lower step below
        exact (ih (last.le.trans below)).trans last
    exact (rises cycle (within upstream.2)).false
  · exact (ascending edge inEdges used (toTarget ▸ within upstream.2)).2

theorem ofMethod_searched (run : (Graph.ofMethod m).run = .ok (.ok g)) : g.Searched := by
  obtain ⟨_, _, _, _, _, _, _, wired, numbered⟩ := covered_of_run run
  exact (wired.searched numbered).2

variable (continues : Continues built final) (straight : final.Straight b)

include continues straight

/-- An edge that leads upstream is no return, so that it was there from the beginning. -/
theorem Straight.built_edge (upstream : final.Upstream b d) (step : final.Steps c d) :
    ∃ (e : EdgeId) (edge : Edge), built.edges[e]? = some edge ∧ edge.removed = false ∧ edge.source = c ∧ edge.target = d := by
  obtain ⟨e, edge, atEdge, used, source, target⟩ := step
  have noReturn := straight.unreturned d upstream edge (Array.mem_of_getElem? atEdge) used target
  obtain ⟨entry, returns⟩ | ⟨back, atBuilt⟩ := continues.added e edge atEdge
  · rw [returns] at noReturn
    cases noReturn
  · exact ⟨e, _, atBuilt, used, source, target⟩

theorem Straight.built_reachable (upstream : final.Upstream b c) : built.Reachable c := by
  obtain ⟨reachable, leads⟩ := upstream
  induction reachable with
  | refl =>
    rw [continues.start]
    exact .refl
  | tail path step ih =>
    obtain ⟨e, edge, atEdge, used, source, target⟩ := straight.built_edge continues ⟨path.tail step, leads⟩ step
    exact (ih (.head step leads)).tail ⟨e, edge, atEdge, used, source, target⟩

/-- Upstream a round visits a block after all those that lead to it: an edge that goes back would close a cycle. -/
theorem Straight.rank_lt (searched : built.Searched) (upstream : final.Upstream b d) (reachable : final.Reachable c)
    (step : final.Steps c d) : built.rank d < built.rank c := by
  obtain ⟨e, edge, atEdge, used, rfl, rfl⟩ := straight.built_edge continues upstream step
  have reached := straight.built_reachable continues (upstream.of_step reachable step)
  rcases searched.forward e edge atEdge used reached with back | lower
  · obtain ⟨_, _, path, trail, member⟩ := searched.back e edge atEdge back
    have leads : Relation.ReflTransGen final.Steps edge.target edge.source := by
      refine Relation.ReflTransGen.mono (fun x y one => ?_) _ _ (trail.leads member)
      obtain ⟨e, joins⟩ := one
      exact ⟨e, continues.joins joins⟩
    exact absurd (Relation.TransGen.tail' leads step) (straight.acyclic _ upstream)
  · exact lower

end Straight

end Graph

namespace Solver

open Unstack.Graph

variable {m : MethodInput} {built final : Graph} {params out : Frame} {s s' : Solver} {b : BlockId} {u : Unit}
  {block : Block}

/-- Upstream, a block that was visited starts with the frame that it had then, what it sends has arrived, and the
blocks that lead to it were visited too. -/
structure Delivered (final : Graph) (b : BlockId) (past : List (BlockId × Graph)) (g : Graph) : Prop where
  settled (c : BlockId) (mid : Graph) (block : Block) : (c, mid) ∈ past → final.Upstream b c →
    final.blocks[c]? = some block → SameCode final mid ∧ g.frames[block.pc]? = mid.frames[block.pc]?
  taken (c d : BlockId) (block next : Block) (first f : Frame) : c ∈ past.map Prod.fst → final.Upstream b c →
    final.Upstream b d → final.blocks[c]? = some block → final.blocks[d]? = some next → g.Holds block.pc first →
      final.Sends c d first f → g.Absorbs next.pc f
  earlier (c d : BlockId) : d ∈ past.map Prod.fst → final.Upstream b d → final.Reachable c → final.Steps c d →
    c ∈ past.map Prod.fst

/-- A visit changes no frame that it should not: a block upstream that was visited gets only what it has taken. -/
theorem Delivered.unchanged (delivered : Delivered final b past s.graph) (straight : final.Straight b)
    (ofMethod : built.Built m) (sound : Sound m built params none s.graph) (steady : Steady m built s.graph)
    {c d : BlockId} (reachable : s.graph.Reachable c) (run : Runs (propagate c) s u s')
    (continues : Continues s'.graph final) (upstream : final.Upstream b d) (found : final.blocks[d]? = some block)
    (visited : d = c ∨ d ∈ past.map Prod.fst) : s'.graph.frames[block.pc]? = s.graph.frames[block.pc]? := by
  obtain ⟨frames, brings, sent⟩ :=
    propagate_brings ofMethod sound steady reachable run continues found (straight.unreturned d upstream)
  refine brings.unchanged fun f member => ?_
  obtain ⟨before, first, found', holds, sends⟩ := (sent f).mp member
  rcases visited with rfl | visited
  · exact absurd (.single sends.steps) (straight.acyclic d upstream)
  · have reachable' := ((moves_propagate run).continues.trans continues).reachable reachable
    have visited' := delivered.earlier c d visited upstream reachable' sends.steps
    exact delivered.taken c d before block first f visited' (upstream.of_step reachable' sends.steps) upstream found' found
      holds sends

/-- A block is visited after all those upstream, so its frame is final. -/
theorem delivered_kept (ofMethod : built.Built m) (searched : built.Searched) (straight : final.Straight b) :
    Kept m built params final (Delivered final b) where
  frames past g g' same delivered := by
    refine ⟨?_, ?_, delivered.earlier⟩
    · rw [same]
      exact delivered.settled
    · unfold Graph.Absorbs Graph.Holds
      rw [same]
      exact delivered.taken
  visit past s s' v sound steady reachable ordered run continues delivered := by
    have toEnd := (moves_propagate run).continues.trans continues
    have unchanged {c : BlockId} {block : Block} (upstream : final.Upstream b c) (found : final.blocks[c]? = some block)
        (visited : c = v ∨ c ∈ past.map Prod.fst) : s'.graph.frames[block.pc]? = s.graph.frames[block.pc]? :=
      delivered.unchanged straight ofMethod sound steady reachable run continues upstream found visited
    have visited {c : BlockId} : c ∈ (past ++ [(v, s.graph)]).map Prod.fst ↔ c = v ∨ c ∈ past.map Prod.fst := by
      simp [or_comm]
    refine ⟨?settled, ?taken, ?earlier⟩
    case settled =>
      intro c mid block member upstream found
      rcases List.mem_append.mp member with before | here
      · obtain ⟨code, same⟩ := delivered.settled c mid block before upstream found
        exact ⟨code, (unchanged upstream found (.inr (List.mem_map.mpr ⟨_, before, rfl⟩))).trans same⟩
      · cases List.mem_singleton.mp here
        exact ⟨toEnd.toSameCode.symm, unchanged upstream found (.inl rfl)⟩
    case taken =>
      intro c d block next first f member upstream upstream' found atTarget holds sends
      have holds' : s.graph.Holds block.pc first := (unchanged upstream found (visited.mp member)).symm.trans holds
      obtain ⟨frames, brings, sent⟩ :=
        propagate_brings ofMethod sound steady reachable run continues atTarget (straight.unreturned d upstream')
      obtain ⟨arrived, kept⟩ := brings.absorbs (fun old atNext => (sound.inside _ old atNext).1) fun f member => by
        obtain ⟨_, first, _, atFirst, sends⟩ := (sent f).mp member
        exact sends.regs.trans (sound.inside _ first atFirst).1
      rcases visited.mp member with rfl | before
      · exact arrived f ((sent f).mpr ⟨block, first, found, holds', sends⟩)
      · exact kept f (delivered.taken c d block next first f before upstream upstream' found atTarget holds' sends)
    case earlier =>
      intro c d member upstream reached step
      refine visited.mpr (.inr ?_)
      rcases visited.mp member with rfl | before
      · have continues' := sound.toContinues.trans toEnd
        have listed := (ofMethod.listed c).mpr (straight.built_reachable continues' (upstream.of_step reached step))
        exact ordered c listed (straight.rank_lt continues' searched upstream reached step)
      · exact delivered.earlier c d before upstream reached step

theorem Delivered.nil (final : Graph) (b : BlockId) (g : Graph) : Delivered final b [] g where
  settled _ _ _ member := absurd member List.not_mem_nil
  taken _ _ _ _ _ _ member := absurd member List.not_mem_nil
  earlier _ _ member := absurd member List.not_mem_nil

/-- A straight block hands on the same frame at each visit. -/
theorem Delivered.handed_eq (delivered : Delivered final b past final) (reachable : final.Reachable b)
    (found : final.blocks[b]? = some block) (behind : final.behind? b = some out) : ∀ f ∈ handed b past, f = out := by
  intro f member
  obtain ⟨mid, visited, here⟩ := mem_handed.mp member
  obtain ⟨code, same⟩ := delivered.settled b mid block visited ⟨reachable, .refl⟩ found
  rw [behind?_congr code found same.symm] at here
  exact here.some_unique behind

theorem visits_still (still : s.Still) (run : Runs (blocks.forM propagate) s u s) :
    visits blocks s = blocks.map fun b => (b, s.graph) := by
  induction blocks with
  | nil => rfl
  | cons b rest ih =>
    obtain ⟨mid, visit, others⟩ := runs_forM_cons.mp run
    have same := (moves_propagate visit).between (moves_forM (fun _ _ _ => moves_propagate) others) still
    rw [same] at visit others
    rw [visits_cons visit, ih others, List.map_cons]

/-- In the end all blocks are visited, and each of them finds the graph that is left. -/
theorem visitsIn_last (ofMethod : built.Built m) (sound : Sound m built params none s.graph) (listed : s.graph.Listed)
    (run : Runs (rounds limit left) s u s') :
    ∃ (past : List (BlockId × Graph)) (blocks : List BlockId), visitsIn left s = past ++ blocks.map (fun b => (b, s'.graph)) ∧
      ∀ b, s'.graph.Reachable b → b ∈ blocks := by
  induction left generalizing s with
  | zero => exact absurd run runs_throw
  | succ left ih =>
    obtain ⟨changed, mid, first, run⟩ := runs_bind.mp run
    cases changed with
    | true =>
      have ⟨sound', listed', _⟩ := round_sound ofMethod sound listed first
      obtain ⟨past, blocks, whole, all⟩ := ih sound' listed' run
      exact ⟨_, blocks, by rw [visitsIn_true first, whole, List.append_assoc], all⟩
    | false =>
      obtain ⟨_, rfl⟩ := runs_pure.mp run
      obtain ⟨swept, sweep, quiet, _, _, noEdge⟩ := round_sweep ofMethod (sound.steady ofMethod listed) first
      have still : swept.Still := Bool.or_eq_false_iff.mp quiet.symm
      cases noEdge still.2
      have same : s' = ⟨s.graph, false, false⟩ :=
        (moves_forM (fun _ _ _ => moves_propagate) sweep : Moves ⟨s.graph, false, false⟩ s').eq_of_still still
      rw [← same] at sweep
      refine ⟨[], s.graph.reversePostorder, ?_, fun b reachable => ?_⟩
      · rw [visitsIn_false first, ← same, visits_still still sweep, List.nil_append]
      · rw [same] at reachable
        exact List.mem_reverse.mpr ((listed b).mpr reachable)

/-- At rest, what stands behind a block follows from its last operation. -/
theorem Rests.behind (rests : Rests m built params s) (ofMethod : built.Built m) (reachable : s.graph.Reachable b)
    (found : s.graph.blocks[b]? = some block) :
    ∃ o ready out, block.ops.getLast? = some o ∧ s.graph.Holds o.pc ready ∧ ready.execute o.pc o.instr = .ok out ∧
      s.graph.behind? b = some out := by
  have laid := ofMethod.toLaid.congr rests.sound.toSameCode
  have known := known_of_reachable ofMethod rests.sound rests.still rests.quiet reachable found
  obtain ⟨_, found', ⟨unknown, _⟩ | ⟨first, frames, out, mid, _, holds, run, _, follows⟩⟩ :=
    runs_propagate (rests.quiet b reachable)
  · cases found.some_unique found'
    obtain ⟨f, holds⟩ := known
    cases unknown.symm.trans holds
  · cases found.some_unique found'
    have same := (moves_run run).between (moves_forM (fun _ _ _ => moves_follow) follows) rests.still
    rw [same] at run
    have traces := (still_run rests.still run).1
    have atEnd := List.getLast?_eq_getLast_of_ne_nil (laid.segment b block found).1
    obtain ⟨ready, atReady, executes⟩ := traces.getLast atEnd
    exact ⟨_, ready, out, atEnd, atReady, executes, behind?_eq found holds traces.through⟩

/-- The last visit hands on what stands behind the block at the end. -/
theorem handed_getLast (ofMethod : built.Built m) (sound : Sound m built params none s.graph)
    (listed : s.graph.Listed) (run : Runs (rounds limit left) s u s') (reachable : s'.graph.Reachable b)
    (behind : s'.graph.behind? b = some out) : (handed b (visitsIn left s)).getLast? = some out := by
  obtain ⟨past, blocks, whole, all⟩ := visitsIn_last ofMethod sound listed run
  have last : ∀ f ∈ handed b (blocks.map fun b => (b, s'.graph)), f = out := by
    intro f member
    obtain ⟨mid, visited, here⟩ := mem_handed.mp member
    obtain ⟨_, _, same⟩ := List.mem_map.mp visited
    cases same
    exact here.some_unique behind
  have some : out ∈ handed b (blocks.map fun b => (b, s'.graph)) :=
    mem_handed.mpr ⟨s'.graph, List.mem_map.mpr ⟨b, all b reachable, rfl⟩, behind⟩
  have nonempty := List.ne_nil_of_mem some
  rw [whole, handed, List.filterMap_append, ← handed, ← handed, List.getLast?_append_of_ne_nil _ nonempty,
    List.getLast?_eq_getLast_of_ne_nil nonempty, last _ (List.getLast_mem nonempty)]

section Rounds

variable {t : BlockId} {next : Block} {e : EdgeId} {limit left : Nat} (ofMethod : built.Built m)
  (sound : Sound m built params none s.graph) (listed : s.graph.Listed) (order : s.graph.postorder = built.postorder)
  (run : Runs (rounds limit left) s u s')

include ofMethod sound listed order run

/-- What is known at a block that one edge leads to is what was handed over along this edge. -/
theorem rounds_hand_over (single : s'.graph.Single e b t) (found : s'.graph.blocks[t]? = some next)
    (reachable : s'.graph.Reachable b) (unknown : s.graph.frames[next.pc]? = some none) :
    ∃ block o ready out stored, s'.graph.blocks[b]? = some block ∧ block.ops.getLast? = some o ∧
      s'.graph.Holds o.pc ready ∧ ready.execute o.pc o.instr = .ok out ∧ s'.graph.behind? b = some out ∧
      s'.graph.Holds next.pc stored ∧ Frame.meetAll next.pc none (handed b (visitsIn left s)) = .ok (some stored) ∧
      (handed b (visitsIn left s)).getLast? = some out := by
  have ⟨_, rests⟩ := rounds_rests ofMethod sound listed run
  obtain ⟨block, atBlock, _⟩ := rests.sound.live ofMethod reachable
  obtain ⟨o, ready, out, atEnd, atReady, executes, behind⟩ := rests.behind ofMethod reachable atBlock
  have nothing : Merged b next.pc [] s.graph := ⟨none, unknown, rfl⟩
  obtain ⟨known, atKnown, meets⟩ :=
    rounds_kept ofMethod (merged_kept ofMethod single found) sound listed (.inl order) run (.refl _) nothing
  obtain ⟨stored, holds⟩ :=
    known_of_reachable ofMethod rests.sound rests.still rests.quiet (reachable.tail ⟨e, single.joins⟩) found
  cases atKnown.some_unique holds
  exact ⟨block, o, ready, out, stored, atBlock, atEnd, atReady, executes, behind, holds, meets,
    handed_getLast ofMethod sound listed run reachable behind⟩

theorem rounds_straight (searched : built.Searched) (straight : s'.graph.Straight b)
    (reachable : s'.graph.Reachable b) (found : s'.graph.blocks[b]? = some block)
    (behind : s'.graph.behind? b = some out) : ∀ f ∈ handed b (visitsIn left s), f = out := by
  have delivered := rounds_kept ofMethod (delivered_kept ofMethod searched straight) sound listed (.inl order) run
    (.refl _) (.nil ..)
  exact delivered.handed_eq reachable found behind

end Rounds

end Solver

namespace Graph

variable {g : Graph} {m : MethodInput} {b : BlockId}

/-- The frames behind a block at its visits, from the first round on. -/
def handed (g : Graph) (options : Options) (b : BlockId) : List Frame :=
  (Solver.next? g.enter ⟨g, false, false⟩).toList.flatMap fun s => Solver.handed b (Solver.visitsIn options.maxRounds s)

theorem Straight.of_countValues (laid : g.Laid m) (straight : g.countValues.Straight b) : g.Straight b := by
  rw [countValues_eq laid] at straight
  exact ⟨straight.acyclic, straight.unreturned⟩

theorem handed_eq (options : Options) {params : Frame} {first : Block} {s : Solver}
    (started : g.info.startFrame = .ok params) (found : g.blocks[g.start]? = some first)
    (arrival : Solver.Runs (Solver.arrive first.pc params) ⟨g, false, false⟩ () s) :
    g.handed options b = Solver.handed b (Solver.visitsIn options.maxRounds s) := by
  rw [handed, Solver.next?_eq (enter_runs started found arrival)]
  simp

theorem Built.solve_listed {g' : Graph} {options : Options} (ofMethod : g.Built m)
    (solved : g.solve options = .ok (.ok (), g')) : g'.Listed := by
  obtain ⟨_, s, _, _, rests, rfl⟩ := ofMethod.solve_rests solved
  rw [countValues_eq (ofMethod.toLaid.congr rests.sound.toSameCode)]
  exact rests.listed

theorem Built.unknown_elsewhere (ofMethod : g.Built m) (params : Frame) {block : Block}
    (found : g.blocks[b]? = some block) (other : b ≠ g.start) :
    (g.withFrame 0 params).frames[block.pc]? = some none := by
  obtain ⟨first, atStart, zero⟩ := ofMethod.start
  have later : 0 ≠ block.pc := fun same => other (ofMethod.eq_of_start found atStart (same.symm.trans zero.symm))
  rw [withFrame, Array.getElem?_setIfInBounds_ne later, ofMethod.frames, Array.getElem?_replicate,
    if_pos (ofMethod.pc_lt found)]

/-- An edge that is listed alone as leading to a block is the only one that does. -/
theorem Wired.single (wired : g.Wired) {s : BlockId} {next : Block} {e : EdgeId} {edge : Edge}
    (found : g.blocks[s]? = some next) (only : next.ins = [e]) (atEdge : g.edges[e]? = some edge)
    (flow : edge.kind.isHandler = false) (noReturn : edge.kind.isReturn = false) : g.Single e edge.source s := by
  have listed : g.insOf s = [e] := (insOf_eq found).trans only
  refine ⟨?_, fun e' c joins => ?_, fun edge' atEdge' => ?_⟩
  · obtain ⟨c, edge', atEdge', used, source, target⟩ := (wired.mem_ins s e).mp (by rw [listed]; exact .head _)
    cases atEdge.some_unique atEdge'
    exact ⟨edge, atEdge, used, rfl, target⟩
  · have member := (wired.mem_ins s e').mpr ⟨c, joins⟩
    rw [listed] at member
    exact List.mem_singleton.mp member
  · cases atEdge.some_unique atEdge'
    exact ⟨flow, noReturn⟩

/-- Where a block is entered by one edge only, neither to a handler nor from a return, its frame is what the block
before it has handed over in the course of the analysis, one frame after the other, and the last of these is the frame
behind that block. A register that was always handed over as it is in the end has this value. If control gets there
without a loop and without a return from a subroutine, nothing else was handed over, and the frames are the same. -/
theorem solve_hands_over {m : MethodInput} {g g' : Graph} {options : Options} {s : BlockId} {next : Block} {e : EdgeId}
    {edge : Edge} (run : (Graph.ofMethod m).run = .ok (.ok g)) (solved : g.solve options = .ok (.ok (), g'))
    (reached : g'.Reachable s) (other : s ≠ g'.start) (found : g'.blocks[s]? = some next) (only : next.ins = [e])
    (atEdge : g'.edges[e]? = some edge) (flow : edge.kind.isHandler = false) (noReturn : edge.kind.isReturn = false) :
    ∃ block o ready out stored, g'.blocks[edge.source]? = some block ∧ block.ops.getLast? = some o ∧
      g'.Holds o.pc ready ∧ ready.execute o.pc o.instr = .ok out ∧ g'.Holds next.pc stored ∧
      Frame.meetAll next.pc none (g.handed options edge.source) = .ok (some stored) ∧
      (g.handed options edge.source).getLast? = some out ∧
      (∀ r, (∀ f ∈ g.handed options edge.source, f.reg r = out.reg r) → stored.reg r = out.reg r) ∧
      (g'.Straight edge.source → stored = out) := by
  have ofMethod := (ofMethod_yields m).of_run run
  obtain ⟨params, first, mid, last, started, atStart, arrival, arrived, rounds, rfl⟩ := ofMethod.solve_runs solved
  have sound := (Sound.initial ofMethod started).2
  rw [← arrived] at sound
  have listed : mid.graph.Listed := by
    rw [arrived]
    exact ofMethod.listed
  have order : mid.graph.postorder = g.postorder := by
    rw [arrived]
    rfl
  have ⟨_, rests⟩ := Solver.rounds_rests ofMethod sound listed rounds
  have laid := ofMethod.toLaid.congr rests.sound.toSameCode
  rw [handed_eq options (by rwa [ofMethod.info]) atStart arrival]
  -- the hypotheses, before operations get the forms that count values
  obtain ⟨old, atOld, rfl⟩ := (countValues_block laid).mp found
  rw [countValues_eq laid] at atEdge other
  have single : last.graph.Single e edge.source s := rests.sound.wired.single atOld only atEdge flow noReturn
  have source : last.graph.Reachable edge.source := by
    rcases Relation.ReflTransGen.cases_tail ((countValues_reachable laid).mp reached) with same | ⟨c, path, e', joins⟩
    · exact absurd same other
    · exact single.source joins ▸ path
  have unknown : mid.graph.frames[old.pc]? = some none := by
    obtain ⟨before, atBefore, start, _⟩ := rests.sound.toSameCode.symm.block atOld
    rw [arrived, ← start]
    exact ofMethod.unknown_elsewhere params atBefore fun same => other (same.trans rests.sound.start.symm)
  obtain ⟨block, o, ready, out, stored, atBlock, atEnd, atReady, executes, behind, holds, meets, ends⟩ :=
    Solver.rounds_hand_over ofMethod sound listed order rounds single atOld source unknown
  have listedOp := laid.op_listed atBlock (List.mem_of_getLast? atEnd)
  refine ⟨last.graph.countedBlock block, last.graph.counted o, ready, out, stored,
    (countValues_block laid).mpr ⟨block, atBlock, rfl⟩, List.getLast?_map.trans (by rw [atEnd]; rfl),
    (countValues_holds laid).mpr atReady, (execute_counted listedOp atReady).trans executes, ?_, meets, ends, ?_, ?_⟩
  · rw [countValues_eq laid]
    exact holds
  · intro r same
    refine Frame.meetAll_reg (fun old absent => ?_) same meets stored rfl
    cases absent
  · intro straight
    have same := Solver.rounds_straight ofMethod sound listed order rounds (ofMethod_searched run)
      (straight.of_countValues laid) source atBlock behind
    rw [Frame.meetAll_of_same (List.ne_nil_of_mem (List.mem_of_getLast? ends)) same] at meets
    exact (Option.some.inj (Except.ok.inj meets)).symm

/-- Two ways meet, and a loop comes later. -/
def rejoined : MethodInput where
  info := MethodInfo.plain "rejoined" 2 1
  ops := [⟨0, 0, -1, .push .int (.int 1)⟩, ⟨0, 0, -1, .store .int 0⟩, ⟨0, 0, -1, .load .int 0⟩,
    ⟨0, 0, -1, .jumpZero .int .eq 6⟩, ⟨0, 0, -1, .push .int (.int 2)⟩, ⟨0, 0, -1, .store .int 0⟩,
    ⟨0, 0, -1, .load .int 0⟩, ⟨0, 0, -1, .jumpZero .int .eq 13⟩, ⟨0, 0, -1, .push .int (.int 3)⟩,
    ⟨0, 0, -1, .store .int 1⟩, ⟨0, 0, -1, .inc .int 1 (-1)⟩, ⟨0, 0, -1, .load .int 1⟩,
    ⟨0, 0, -1, .jumpZero .int .ne 10⟩, ⟨0, 0, -1, .leave .void⟩]
  exceptions := []

theorem solve_hands_over_rejoined : ∃ g g' next edge block o ready out, (Graph.ofMethod rejoined).run = .ok (.ok g) ∧
    g.solve {} = .ok (.ok (), g') ∧ g'.Reachable 4 ∧ 4 ≠ g'.start ∧ g'.blocks[4]? = some next ∧ next.ins = [4] ∧
    g'.edges[4]? = some edge ∧ edge.kind.isHandler = false ∧ edge.kind.isReturn = false ∧ g'.Straight edge.source ∧
    g'.blocks[edge.source]? = some block ∧ block.ops.getLast? = some o ∧ g'.Holds o.pc ready ∧
    ready.execute o.pc o.instr = .ok out ∧ out.reg 0 = some ⟨6, 0, .int, .merged⟩ ∧ g'.Holds next.pc out := by
  have facts : (solved? rejoined {}).any fun g' => 4 ∈ g'.postorder ∧ 4 ≠ g'.start ∧
      (∃ next ∈ g'.blocks[4]?, next.ins = [4] ∧ ∀ f, g'.Holds next.pc f → f.reg 0 = some ⟨6, 0, .int, .merged⟩) ∧
      (∃ edge ∈ g'.edges[4]?, edge.source = 2 ∧ edge.kind.isHandler = false ∧ edge.kind.isReturn = false) ∧
      ∀ edge ∈ g'.edges, edge.removed = false → edge.target ≤ 2 →
        edge.source < edge.target ∧ edge.kind.isReturn = false := by
    decide +kernel
  obtain ⟨g, g', run, solved⟩ := solves_of_isSome (show (solved? rejoined {}).isSome by decide +kernel)
  have given : solved? rejoined {} = some g' := by simp [solved?, Building.result?, run, solved]
  rw [given, Option.any_some] at facts
  obtain ⟨listed, other, ⟨next, found, only, value⟩, ⟨edge, atEdge, source, flow, noReturn⟩, ascending⟩ :=
    of_decide_eq_true facts
  have reached : g'.Reachable 4 := (((ofMethod_yields rejoined).of_run run).solve_listed solved 4).mp listed
  have straight : g'.Straight edge.source := source ▸ .of_ascending ascending
  obtain ⟨block, o, ready, out, stored, atBlock, atEnd, atReady, executes, holds, _, _, _, same⟩ :=
    solve_hands_over run solved reached other found only atEdge flow noReturn
  rw [same straight] at holds
  exact ⟨g, g', next, edge, block, o, ready, out, run, solved, reached, other, found, only, atEdge, flow, noReturn,
    straight, atBlock, atEnd, atReady, executes, value out holds, holds⟩

/-- A loop that counts a register down. -/
def descending : MethodInput where
  info := MethodInfo.plain "descending" 2 2
  ops := [⟨0, 0, -1, .push .int (.int 3)⟩, ⟨0, 0, -1, .store .int 0⟩, ⟨0, 0, -1, .load .int 0⟩,
    ⟨0, 0, -1, .jumpZero .int .eq 6⟩, ⟨0, 0, -1, .inc .int 0 (-1)⟩, ⟨0, 0, -1, .goto 2⟩, ⟨0, 0, -1, .leave .void⟩]
  exceptions := []

/-- In a loop, the frame behind the head changes after it was handed over, so that the block behind it merges it with
itself: a value is merged there although only one edge leads there. -/
theorem solve_merges_without_join : ∃ g g' next edge block o ready out stored,
    (Graph.ofMethod descending).run = .ok (.ok g) ∧ g.solve {} = .ok (.ok (), g') ∧ g'.Reachable 1 ∧ 1 ≠ g'.start ∧
    g'.blocks[1]? = some next ∧ next.ins = [1] ∧ g'.edges[1]? = some edge ∧ edge.kind = .whenFalse ∧
    g'.blocks[edge.source]? = some block ∧ block.ops.getLast? = some o ∧ g'.Holds o.pc ready ∧
    ready.execute o.pc o.instr = .ok out ∧ g'.Holds next.pc stored ∧ out.reg 0 = some ⟨2, 0, .int, .merged⟩ ∧
    stored.reg 0 = some ⟨next.pc, 0, .int, .merged⟩ := by
  have facts : (solved? descending {}).any fun g' => 1 ∈ g'.postorder ∧ 1 ≠ g'.start ∧
      ∃ next ∈ g'.blocks[1]?, next.ins = [1] ∧ g'.Known next.pc ∧
      (∀ f, g'.Holds next.pc f → f.reg 0 = some ⟨next.pc, 0, .int, .merged⟩) ∧
      ∃ edge ∈ g'.edges[1]?, edge.kind = .whenFalse ∧ ∃ block ∈ g'.blocks[edge.source]?,
      ∃ o ∈ block.ops.getLast?, g'.Known o.pc ∧ ∀ f, g'.Holds o.pc f →
        (f.execute o.pc o.instr).toOption.any fun out => out.reg 0 = some ⟨2, 0, .int, .merged⟩ := by
    decide +kernel
  obtain ⟨g, g', run, solved⟩ := solves_of_isSome (show (solved? descending {}).isSome by decide +kernel)
  have given : solved? descending {} = some g' := by simp [solved?, Building.result?, run, solved]
  rw [given, Option.any_some] at facts
  obtain ⟨listed, other, next, found, only, ⟨stored, holds⟩, value, edge, atEdge, kind, block, atBlock, o, atEnd,
    ⟨ready, atReady⟩, behind⟩ := of_decide_eq_true facts
  have reached : g'.Reachable 1 := (((ofMethod_yields descending).of_run run).solve_listed solved 1).mp listed
  obtain ⟨out, executes, value'⟩ := of_any_toOption (behind ready atReady)
  exact ⟨g, g', next, edge, block, o, ready, out, stored, run, solved, reached, other, found, only, atEdge, kind, atBlock,
    atEnd, atReady, executes, holds, of_decide_eq_true value', value stored holds⟩

/-- Without a loop the same happens behind a call that can be left out: what comes back arrives after the frame of the
other way was handed over. -/
example : (solved? ⟨MethodInfo.plain "bypass" 2 1, [⟨0, 0, -1, .push .int (.int 1)⟩, ⟨0, 0, -1, .store .int 0⟩,
      ⟨0, 0, -1, .load .int 0⟩, ⟨0, 0, -1, .jumpZero .int .eq 6⟩, ⟨0, 0, -1, .inc .int 0 1⟩, ⟨0, 0, -1, .enterSub 8⟩,
      ⟨0, 0, -1, .goto 7⟩, ⟨0, 0, -1, .leave .void⟩, ⟨0, 0, -1, .store .returnAddress 1⟩, ⟨0, 0, -1, .leaveSub 1⟩], []⟩
      {}).any fun g' => (∀ edge ∈ g'.edges, edge.back = false) ∧ (∃ next ∈ g'.blocks[3]?, next.pc = 7 ∧ next.ins = [3]) ∧
    (∃ edge ∈ g'.edges[3]?, edge.kind = .sequence) ∧ ∀ f, g'.Holds 7 f → f.reg 0 = some ⟨7, 0, .int, .merged⟩ := by
  decide +kernel

end Graph

end Unstack
