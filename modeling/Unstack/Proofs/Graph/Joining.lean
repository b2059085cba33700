import Unstack.Proofs.Graph.Exclusive

namespace Unstack.Graph

variable {g : Graph} {b : BlockId}

theorem outs_altered {change : Block → Block} (keeps : KeepsWiring change) (b i : BlockId) :
    (g.altered b change).outs i = g.outs i := by
  simp only [outs, block, altered_block]
  by_cases here : b = i
  · subst here
    rw [if_pos rfl]
    cases g.blocks[b]? with
    | none => rfl
    | some block =>
      simp only [Option.map_some, ok_bind, (keeps block).2.1]
      rfl
  · rw [if_neg here]
    rfl

/-- The block that stands for `x` once `pred` is a part of `b`. -/
def afterJoin (b pred x : BlockId) : BlockId := if x = pred then b else x

section Joined

variable {pred i : BlockId} {front : Block} (wired : g.Wired) (found : g.blocks[pred]? = some front) (live : g.Live b)
  (closed : b = pred → ∀ e source, g.Joins e source b → source = b)

include wired found live closed

/-- What entered `pred` enters `b`, and what left it is gone. -/
theorem Wired.joined_joins (e : EdgeId) (source target : BlockId) :
    (g.joined b pred front).Joins e source target ↔
      source ≠ pred ∧ ∃ old, g.Joins e source old ∧ target = afterJoin b pred old := by
  obtain ⟨block, atPred, sameIns⟩ := gathered_front found b
  have gathered := gathered_wired wired b pred front
  have inside : b < (g.gathered b pred front).blocks.size := by simpa [Graph.gathered] using live.lt
  have moved := gathered.movedIns atPred inside (.inl ((gathered_live b pred front b).mpr live))
  have joins := gathered.movedIns_joins atPred b e source target
  rw [sameIns] at moved joins
  have same (old : BlockId) : (g.gathered b pred front).Joins e source old ↔ g.Joins e source old := .rfl
  rw [joined, moved.withoutBlock_joins, joins]
  simp only [same]
  constructor
  · rintro ⟨⟨old, before, atTarget⟩, notPred, _⟩
    exact ⟨notPred, old, before, atTarget⟩
  · rintro ⟨notPred, old, before, atTarget⟩
    refine ⟨⟨old, before, atTarget⟩, notPred, ?_⟩
    rw [atTarget, afterJoin]
    split
    · rename_i toPred
      intro same
      rw [toPred, ← same] at before
      exact notPred ((closed same e source before).trans same)
    · assumption

/-- An edge that stays differs at most in its target. -/
theorem Wired.joined_edge {e : EdgeId} {edge : Edge} {source : BlockId} (joins : g.Joins e source edge.target)
    (atEdge : g.edges[e]? = some edge) (away : source ≠ pred) :
    (g.joined b pred front).edges[e]? = some { edge with target := afterJoin b pred edge.target } := by
  obtain ⟨edge', found', used', _, target'⟩ :=
    (wired.joined_joins found live closed e source _).mpr ⟨away, edge.target, joins, rfl⟩
  obtain ⟨_, atEdge', used, _, _⟩ := joins
  cases atEdge.some_unique atEdge'
  -- only the target and the mark of an edge are touched, and both are known
  have touched : ∃ target removed, (g.joined b pred front).edges[e]? = some { edge with target, removed } := by
    change ∃ target removed, (((g.gathered b pred front).movedIns pred b front.ins).without _).edges[e]? = _
    rw [without_edge, Graph.movedIns, Array.getElem?_mapIdx, show (g.gathered b pred front).edges[e]? = some edge from atEdge]
    simp only [Option.map_some]
    split
    · exact ⟨_, _, rfl⟩
    · exact ⟨_, _, rfl⟩
  obtain ⟨target, removed, same⟩ := touched
  rw [same] at found'
  cases found'
  simp only at used' target'
  rw [same, target', used', ← used]

theorem Wired.joined_outsOf (other : i ≠ pred) : (g.joined b pred front).outsOf i = g.outsOf i := by
  have kept : ∃ p : EdgeId → Bool, (g.joined b pred front).outsOf i = (g.outsOf i).filter p := by
    rw [joined, withoutBlock_outsOf, without_outsOf, movedIns_outsOf _ _ _ _ i]
    refine ⟨_, congrArg _ ?_⟩
    simp only [outsOf, gathered, Array.getElem?_modify]
    by_cases atBlock : b = i <;> by_cases atPred : pred = i <;> cases g.blocks[i]? <;> simp [atBlock, atPred, prepend]
  obtain ⟨p, same⟩ := kept
  rw [same]
  refine List.filter_eq_self.mpr fun e member => ?_
  obtain ⟨target, joins⟩ := (wired.mem_outs i e).mp member
  have stays := (wired.joined_joins found live closed e i _).mpr ⟨other, target, joins, rfl⟩
  have listed := ((joinPred_eq wired found live.lt (.inl live)).2.mem_outs i e).mpr ⟨_, stays⟩
  rw [same] at listed
  exact (List.mem_filter.mp listed).2

theorem Wired.outs_joined (other : i ≠ pred) {outs : List (EdgeId × Edge)} (run : g.outs i = .ok outs) :
    (g.joined b pred front).outs i =
      .ok (outs.map fun out => (out.1, { out.2 with target := afterJoin b pred out.2.target })) := by
  obtain ⟨block, atBlock, _⟩ := bind_eq_ok.mp run
  have atBlock := block_eq_ok.mp atBlock
  have inside := atBlock.lt_size
  obtain ⟨outs', run', leaving⟩ := wired.leaving inside
  cases run.ok_unique run'
  have inside' : i < (g.joined b pred front).blocks.size := by simpa [joined, gathered] using inside
  have names := wired.joined_outsOf found live closed other
  rw [outsOf_eq (Array.getElem?_eq_getElem inside'), outsOf_eq atBlock] at names
  refine (outs_eq_ok (Array.getElem?_eq_getElem inside')).mpr ⟨?_, fun out' member => ?_⟩
  · rw [names, ← ((outs_eq_ok atBlock).mp run).1, List.map_map]
    rfl
  · obtain ⟨out, listed, rfl⟩ := List.mem_map.mp member
    obtain ⟨atEdge, joins⟩ := leaving out listed
    exact wired.joined_edge found live closed joins atEdge other

theorem Wired.targetOf_joined (other : i ≠ pred) {kind : EdgeKind} {target : Option BlockId}
    (run : g.targetOf kind i = .ok target) :
    (g.joined b pred front).targetOf kind i = .ok (target.map (afterJoin b pred)) := by
  obtain ⟨outs, leaving, chosen⟩ := bind_eq_ok.mp run
  cases chosen
  simp only [targetOf, wired.outs_joined found live closed other leaving, ok_bind, List.find?_map, Option.map_map]
  rfl

end Joined

end Unstack.Graph
