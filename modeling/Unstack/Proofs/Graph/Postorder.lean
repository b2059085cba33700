import Unstack.Proofs.Graph.Arena
import Unstack.Proofs.Graph.Cycle
import Unstack.Proofs.Graph.Sturdy

namespace Unstack

namespace Graph

variable {g g' : Graph} {b : BlockId}

/-- An edge that does not go back leads from one block to the other. -/
def Onward (g : Graph) (b c : BlockId) : Prop :=
  ∃ (e : EdgeId) (edge : Edge),
    g.edges[e]? = some edge ∧ edge.removed = false ∧ edge.back = false ∧ edge.source = b ∧ edge.target = c

theorem node_inside {i : Fin g.size} (run : g.node b = .ok i) : b < g.size := by
  by_contra outside
  simp [node, outside] at run

/-- Blocks can be numbered if the start names one, removed or not. -/
theorem Wired.renumber_iff (wired : g.Wired) : (∃ g', g.renumber = .ok g') ↔ g.start < g.size := by
  constructor
  · rintro ⟨g', run⟩
    obtain ⟨f, resolved, _⟩ := wired.flow_total
    rw [Graph.renumber, resolved, ok_bind] at run
    obtain ⟨i, atStart, _⟩ := bind_eq_ok.mp run
    exact node_inside atStart
  · intro inside
    obtain ⟨g', run, _⟩ := wired.renumber inside
    exact ⟨g', run⟩

namespace Searched

theorem number_of_listed (searched : g.Searched) (wired : g.Wired) {i : Nat} (listed : g.postorder[i]? = some b) :
    ∃ block, g.blocks[b]? = some block ∧ block.postorder = i := by
  have reached := (searched.listed b).mp (List.mem_of_getElem? listed)
  have found := Array.getElem?_eq_getElem (wired.reachable_lt searched.inside reached)
  obtain ⟨inside, rfl⟩ := List.getElem?_eq_some_iff.mp listed
  exact ⟨_, found, (searched.number _ _ found reached).trans (searched.once.idxOf_getElem i inside)⟩

/-- The edges that go back are those that do not lead down. -/
theorem back_iff (searched : g.Searched) {e : EdgeId} {edge : Edge} (found : g.edges[e]? = some edge)
    (used : edge.removed = false) (reached : g.Reachable edge.source) :
    edge.back = true ↔ g.rank edge.source ≤ g.rank edge.target := by
  constructor
  · exact fun back => (searched.back e edge found back).2.1
  · intro up
    rcases searched.forward e edge found used reached with back | down
    · exact back
    · omega

theorem back_reached (searched : g.Searched) {e : EdgeId} {edge : Edge} (found : g.edges[e]? = some edge)
    (back : edge.back = true) : edge.removed = false ∧ g.Reachable edge.source := by
  obtain ⟨used, _, path, trail, _⟩ := searched.back e edge found back
  exact ⟨used, trail.reaches⟩

/-- Each edge that does not go back leads to a smaller number. -/
theorem onward_lt (searched : g.Searched) {c : BlockId} (reached : g.Reachable b) (one : g.Onward b c) :
    g.Reachable c ∧ g.rank c < g.rank b := by
  obtain ⟨e, edge, found, used, onward, rfl, rfl⟩ := one
  refine ⟨reached.tail ⟨e, edge, found, used, rfl, rfl⟩, ?_⟩
  rcases searched.forward e edge found used reached with back | down
  · rw [back] at onward
    cases onward
  · exact down

theorem onwards_lt (searched : g.Searched) {c : BlockId} (reached : g.Reachable b)
    (way : Relation.TransGen g.Onward b c) : g.Reachable c ∧ g.rank c < g.rank b := by
  induction way with
  | single one => exact searched.onward_lt reached one
  | tail _ one ih =>
    obtain ⟨reached', lower⟩ := searched.onward_lt ih.1 one
    exact ⟨reached', lower.trans ih.2⟩

end Searched

theorem Renumbered.live_iff (numbered : Renumbered g g') (i : BlockId) : g'.Live i ↔ g.Live i := by
  obtain ⟨number, found⟩ := numbered.blocks i
  simp [Live, found]

/-- What is reached stays so when the rest is taken out. -/
theorem Wired.reachable_withoutBlocks (wired : g.Wired) {dead : List BlockId}
    (unreached : ∀ i, i ∈ dead → ¬ g.Reachable i) {i : BlockId} (reached : g.Reachable i) :
    (g.withoutBlocks dead).Reachable i := by
  have start : (g.withoutBlocks dead).start = g.start := withoutBlocks_start dead
  unfold Reachable at reached ⊢
  rw [start]
  induction reached with
  | refl => exact .refl
  | @tail source target path step ih =>
    obtain ⟨e, joins⟩ := step
    have stays (i : BlockId) (reached : g.Reachable i) : i ∉ dead := fun lost => unreached i lost reached
    exact ih.tail ⟨e, (wired.withoutBlocks_joins dead e source target).mpr
      ⟨joins, stays source path, stays target (path.tail ⟨e, joins⟩)⟩⟩

/-- Only the start is reached without an edge that leads to it. -/
theorem Wired.live_of_reachable (wired : g.Wired) (reached : g.Reachable b) : g.Live b ∨ b = g.start := by
  rcases Relation.ReflTransGen.cases_tail reached with same | ⟨c, _, e, joins⟩
  · exact .inr same
  · exact .inl (wired.ends_live e c b joins).2

theorem Wired.removed_blocks (wired : g.Wired) {count : Nat} (run : g.removeUnreachable = .ok (count, g')) :
    ∃ dead, g' = g.withoutBlocks dead ∧ ∀ b, b ∈ dead ↔ g.Live b ∧ ¬ g.Reachable b := by
  have inside : g.start < g.size := by
    obtain ⟨f, resolved, _⟩ := wired.flow_total
    rw [Graph.removeUnreachable, resolved, ok_bind] at run
    obtain ⟨i, atStart, _⟩ := bind_eq_ok.mp run
    exact node_inside atStart
  obtain ⟨dead, removed, unreached⟩ := wired.removeUnreachable_eq inside
  cases run.ok_unique removed
  exact ⟨dead, rfl, unreached⟩

/-- After what is not reached was taken out, the start reaches all that is left. -/
theorem Wired.reachable_iff_of_removed (wired : g.Wired) {count : Nat} (run : g.removeUnreachable = .ok (count, g'))
    (b : BlockId) : g'.Reachable b ↔ g'.Live b ∨ b = g'.start := by
  obtain ⟨dead, rfl, unreached⟩ := wired.removed_blocks run
  refine ⟨(wired.withoutBlocks dead).live_of_reachable, ?_⟩
  rintro (live | rfl)
  · obtain ⟨live, kept⟩ := (withoutBlocks_live dead b).mp live
    have known : g.Reachable b := by
      by_contra lost
      exact kept ((unreached b).mpr ⟨live, lost⟩)
    exact wired.reachable_withoutBlocks (fun i lost => ((unreached i).mp lost).2) known
  · exact .refl

/-- Numbering is a depth-first search. It succeeds if the start names a block; then it lists what the start reaches,
each block once and numbered with its position, and the edges that leave a listed block go back exactly if they do
not lead down. Other edges are not marked. If what is not reached was taken out before, the list holds the blocks in
use, and the start also where it was removed. -/
theorem renumber_depthFirst (wired : g.Wired) :
    ((∃ g', g.renumber = .ok g') ↔ g.start < g.size) ∧
    ∀ g', g.renumber = .ok g' →
      (∀ b, b ∈ g'.postorder ↔ g.Reachable b) ∧ g'.postorder.Nodup ∧
      (∀ (i : Nat) (b : BlockId), g'.postorder[i]? = some b →
        ∃ block : Block, g'.blocks[b]? = some block ∧ block.postorder = i) ∧
      (∀ (e : EdgeId) (edge : Edge) (source target : Block), g'.edges[e]? = some edge → edge.removed = false →
        g.Reachable edge.source → g'.blocks[edge.source]? = some source → g'.blocks[edge.target]? = some target →
        (edge.back = true ↔ source.postorder ≤ target.postorder)) ∧
      (∀ b, g.Reachable b → ¬ Relation.TransGen g'.Onward b b) ∧
      (∀ (e : EdgeId) (edge : Edge), g'.edges[e]? = some edge → edge.back = true →
        edge.removed = false ∧ g.Reachable edge.source) ∧
      ∀ (before : Graph) (count : Nat), before.Wired → before.removeUnreachable = .ok (count, g) →
        ∀ b, b ∈ g'.postorder ↔ g'.Live b ∨ b = g'.start := by
  refine ⟨wired.renumber_iff, fun g' run => ?_⟩
  obtain ⟨numbered, searched⟩ := wired.searched run
  have same := numbered.reachable_iff
  refine ⟨numbered.listed, numbered.once, fun i b => searched.number_of_listed (numbered.wired wired), ?_, ?_, ?_, ?_⟩
  · intro e edge source target found used reached atSource atTarget
    have reached' := (same _).mpr reached
    have onward := reached'.tail ⟨e, edge, found, used, rfl, rfl⟩
    rw [searched.number _ _ atSource reached', searched.number _ _ atTarget onward]
    exact searched.back_iff found used reached'
  · intro b reached way
    exact (searched.onwards_lt ((same b).mpr reached) way).2.false
  · intro e edge found back
    obtain ⟨used, reached⟩ := searched.back_reached found back
    exact ⟨used, (same _).mp reached⟩
  · intro before count wired' removed b
    rw [numbered.listed, wired'.reachable_iff_of_removed removed, numbered.live_iff, numbered.start]

/-- A loop at one block, a loop around two, parallel edges, and a block that is not reached but leads to others. -/
def knot : List Edit :=
  [.newBlock 0, .newBlock 1, .newBlock 2, .newBlock 3, .newBlock 4, .addEdge 0 1 .sequence, .addEdge 1 1 .whenTrue,
    .addEdge 1 2 .whenFalse, .addEdge 2 1 .sequence, .addEdge 0 2 .sequence, .addEdge 0 2 .sequence, .addEdge 3 1 .sequence,
    .addEdge 2 4 .sequence]

theorem renumber_depthFirst_knot : ∃ before count g g',
    Edit.run (Graph.empty (MethodInfo.plain "knot" 0 0) []) knot = .ok before ∧
      before.removeUnreachable = .ok (count, g) ∧ g.renumber = .ok g' ∧ g'.postorder = [4, 2, 1, 0] ∧
      ∀ b, b ∈ g'.postorder ↔ g'.Live b ∨ b = g'.start := by
  have value : (do
      let before ← Edit.run (Graph.empty (MethodInfo.plain "knot" 0 0) []) knot
      let removed ← before.removeUnreachable
      let g' ← removed.2.renumber
      return g'.postorder : Checked (List BlockId)) = .ok [4, 2, 1, 0] := by decide +kernel
  obtain ⟨before, ran, value⟩ := bind_eq_ok.mp value
  obtain ⟨⟨count, g⟩, removed, value⟩ := bind_eq_ok.mp value
  obtain ⟨g', numbered, order⟩ := bind_eq_ok.mp value
  obtain ⟨before', ran', wired⟩ :=
    (by decide +kernel : Edit.AllFit (Graph.empty (MethodInfo.plain "knot" 0 0) []) knot).wired (Graph.empty_wired _ _)
  cases Except.ok.inj (ran.symm.trans ran')
  obtain ⟨dead, rfl, _⟩ := wired.removed_blocks removed
  obtain ⟨_, _, _, _, _, _, listed⟩ := (renumber_depthFirst (wired.withoutBlocks dead)).2 g' numbered
  exact ⟨before, count, _, g', ran, removed, numbered, Except.ok.inj order, listed before count wired removed⟩

/-- A graph whose only block was removed. -/
def vacated : Graph := ((Graph.empty (MethodInfo.plain "vacated" 0 0) []).newBlock 0).2.withoutBlock 0

/-- Taking out what is not reached does not leave only blocks in use to be listed: the start is listed even if it was
removed. -/
theorem renumber_lists_removed : ∃ count g g', vacated.Wired ∧ vacated.removeUnreachable = .ok (count, g) ∧
    g.renumber = .ok g' ∧ ¬ ∀ b, b ∈ g'.postorder ↔ g'.Live b := by
  have wired : vacated.Wired := ((Graph.empty_wired _ _).newBlock 0).withoutBlock 0
  have inside : vacated.start < vacated.size := by decide +kernel
  obtain ⟨dead, removed, _⟩ := wired.removeUnreachable_eq inside
  have start : (vacated.withoutBlocks dead).start = vacated.start := withoutBlocks_start dead
  obtain ⟨g', run, numbered⟩ := (wired.withoutBlocks dead).renumber (by rwa [start, size, withoutBlocks_size])
  refine ⟨_, _, g', wired, removed, run, fun all => ?_⟩
  have listed : vacated.start ∈ g'.postorder := (numbered.listed _).mpr (start ▸ .refl)
  have live : vacated.Live vacated.start :=
    ((withoutBlocks_live dead _).mp ((numbered.live_iff _).mp ((all _).mp listed))).1
  exact ((withoutBlock_live 0 _).mp live).2 rfl

end Graph

end Unstack
