import Unstack.Proofs.Graph.Search

namespace Unstack

namespace Graph

variable {g g' : Graph}

theorem idxOf_lt_of_sublist {l : List BlockId} {x y : BlockId} (once : l.Nodup) (order : [x, y].Sublist l) :
    l.idxOf x < l.idxOf y := by
  induction l with
  | nil => cases order
  | cons a rest ih =>
    obtain ⟨fresh, once⟩ := List.nodup_cons.mp once
    cases order with
    | cons _ later =>
      have members := later.subset
      have notFirst : a ≠ x := fun same => fresh (same ▸ members (by simp))
      have notSecond : a ≠ y := fun same => fresh (same ▸ members (by simp))
      rw [List.idxOf_cons_ne _ notFirst, List.idxOf_cons_ne _ notSecond]
      exact Nat.succ_lt_succ (ih once later)
    | cons_cons _ later =>
      have notSecond : x ≠ y := fun same => fresh (same ▸ List.singleton_sublist.mp later)
      rw [List.idxOf_cons_self, List.idxOf_cons_ne _ notSecond]
      exact Nat.succ_pos _

/-- The position of a block in the order of the last search. -/
def rank (g : Graph) (b : BlockId) : Nat := g.postorder.idxOf b

/-- Order, numbers and marks of back edges are those of a depth-first search from the start. -/
structure Searched (g : Graph) : Prop where
  inside : g.start < g.size
  listed (b : BlockId) : b ∈ g.postorder ↔ g.Reachable b
  once : g.postorder.Nodup
  number (b : BlockId) (block : Block) : g.blocks[b]? = some block → g.Reachable b → block.postorder = g.rank b
  forward (e : EdgeId) (edge : Edge) : g.edges[e]? = some edge → edge.removed = false → g.Reachable edge.source →
    edge.back = true ∨ g.rank edge.target < g.rank edge.source
  back (e : EdgeId) (edge : Edge) : g.edges[e]? = some edge → edge.back = true →
    edge.removed = false ∧ g.rank edge.source ≤ g.rank edge.target ∧
      ∃ trail, Trail g.Steps g.start edge.source trail ∧ edge.target ∈ trail
  parent (b : BlockId) : g.Reachable b → b = g.start ∨ ∃ c, g.Steps c b ∧ g.Reachable c ∧ g.rank b < g.rank c

/-- What is left earlier has the lower position. -/
theorem idxOf_left_lt {n : Nat} {left : List (Fin n)} (once : left.Nodup) {x y : Fin n} (order : [x, y].Sublist left) :
    (left.reverse.map Fin.val).idxOf y.val < (left.reverse.map Fin.val).idxOf x.val := by
  refine idxOf_lt_of_sublist ((List.nodup_reverse.mpr once).map Fin.val_injective) ?_
  have turned : [y, x].Sublist left.reverse := by simpa using order.reverse
  exact turned.map Fin.val

theorem Wired.searched (wired : g.Wired) (run : g.renumber = .ok g') : Renumbered g g' ∧ g'.Searched := by
  obtain ⟨f, flowed, reflects⟩ := wired.flow_total
  have inside : g.start < g.size := by
    by_contra outside
    simp [Graph.renumber, flowed, node, outside, bind, Except.bind] at run
  obtain ⟨_, run', renumbered⟩ := wired.renumber inside
  cases run'.ok_unique run
  have orderly := (f.walk_orderly ⟨g.start, inside⟩).1
  simp only [Graph.renumber, flowed, node, dif_pos inside, ok_bind] at run
  generalize f.walk ⟨g.start, inside⟩ = w at orderly run
  have once : w.left.Nodup := by simpa using orderly.once
  have order := Except.ok.inj run
  have postorder : g'.postorder = w.left.reverse.map Fin.val := by rw [← order]
  have edges (e : EdgeId) : g'.edges[e]? = g.edges[e]?.map fun edge => { edge with back := w.back.contains e } := by
    rw [← order]
    exact Array.getElem?_mapIdx
  have listed (b : BlockId) : b ∈ g'.postorder ↔ g'.Reachable b :=
    (renumbered.listed b).trans (renumbered.reachable_iff b).symm
  have left_iff (x : Fin g.size) : x ∈ w.left ↔ g'.Reachable x := by
    rw [← listed, postorder, List.mem_map_of_injective Fin.val_injective, List.mem_reverse]
  have rank_lt {x y : Fin g.size} (order : [x, y].Sublist w.left) : g'.rank y < g'.rank x := by
    rw [rank, rank, postorder]
    exact idxOf_left_lt once order
  have steps : g'.Steps = g.Steps := by
    funext a b
    simp only [Steps, renumbered.joins_iff]
  refine ⟨renumbered, ⟨?_, listed, renumbered.once, ?_, ?_, ?_, ?_⟩⟩
  · simpa [← order, Graph.size] using inside
  · intro b block found reached
    rw [← order, Array.getElem?_mapIdx] at found
    obtain ⟨old, _, same⟩ := Option.map_eq_some_iff.mp found
    rw [← listed, postorder] at reached
    obtain ⟨i, position⟩ := Option.isSome_iff_exists.mp (List.isSome_idxOf?.mpr reached)
    rw [← same, position, rank, postorder, List.idxOf_eq_getD_idxOf?, position]
    rfl
  · intro e edge found used reached
    rw [edges] at found
    obtain ⟨old, atEdge, rfl⟩ := Option.map_eq_some_iff.mp found
    have joins : g.Joins e old.source old.target := ⟨old, atEdge, used, rfl, rfl⟩
    have ends := wired.ends_live _ _ _ joins
    have leaves := (wired.mem_outs old.source e).mpr ⟨_, joins⟩
    rw [← reflects.outs ⟨old.source, ends.1.lt⟩] at leaves
    obtain ⟨arc, member, rfl⟩ := List.mem_map.mp leaves
    have target := (joins.unique (reflects.arc_joins wired member)).2
    have reached' := (left_iff ⟨old.source, ends.1.lt⟩).mpr reached
    refine (orderly.forward _ arc reached' member).imp (fun marked => by simpa using marked) fun order => ?_
    have lower := rank_lt order
    rwa [← target] at lower
  · intro e edge found marked
    rw [edges] at found
    obtain ⟨old, atEdge, rfl⟩ := Option.map_eq_some_iff.mp found
    obtain ⟨x, arc, trail, member, rfl, along, onTrail, position⟩ := orderly.back e (by simpa using marked)
    obtain ⟨edge', found', used, atSource, atTarget⟩ := reflects.arc_joins wired member
    cases atEdge.some_unique found'
    refine ⟨used, ?_, trail.map Fin.val, ?_, ?_⟩
    · simp only [atSource, atTarget]
      rcases position with same | order
      · rw [same]
      · exact (rank_lt (by simpa using order)).le
    · simp only [atSource, renumbered.start, steps]
      exact along.map (fun a b => (reflects.steps_iff wired a b).mp) Fin.val_injective
    · simp only [atTarget]
      exact List.mem_map_of_mem onTrail
  · intro b reached
    have member : b ∈ w.left.reverse.map Fin.val := postorder ▸ (listed b).mpr reached
    obtain ⟨x, left, rfl⟩ := List.mem_map.mp member
    have inLine : x ∈ ([] : List (Fin g.size)).reverse ++ w.left := by simpa using left
    refine (orderly.parent x inLine).imp (fun same => ?_) fun above => ?_
    · rw [same, renumbered.start]
    · obtain ⟨y, step, order⟩ := above
      have order : [y, x].Sublist w.left := by simpa using order
      refine ⟨y, ?_, (left_iff y).mp (order.subset (by simp)), rank_lt order⟩
      rw [steps]
      exact (reflects.steps_iff wired y x).mp step

end Graph

end Unstack
