import Unstack.Proofs.Build.Result
import Unstack.Proofs.Dominator.Rounds

namespace Unstack

/-- What dominates a reachable place is reachable. -/
theorem Dominates.reaches {α : Type} {step : α → α → Prop} {start a b : α} (dominates : Dominates step start a b)
    (reached : Relation.ReflTransGen step start b) : Relation.ReflTransGen step start a := by
  by_contra unreached
  refine dominates_iff.mp dominates ⟨fun same => unreached (same ▸ .refl), ?_⟩
  clear dominates
  induction reached with
  | refl => exact .refl
  | tail before one ih => exact ih.tail ⟨one, fun same => unreached (same ▸ before.tail one)⟩

namespace Graph

variable {g : Graph} {f : Flow g.size}

theorem payload_found (b : Fin g.size) : g.blocks[b.val]? = some (g.payload b) :=
  Array.getElem?_eq_getElem (show b.val < g.blocks.size from b.isLt)

theorem Reflects.in_joins (reflects : g.Reflects f) (wired : g.Wired) {b : Fin g.size} {arc : Arc g.size}
    (member : arc ∈ f.ins.get b) : g.Joins arc.edge arc.source b := by
  obtain ⟨edge, found, used, atSource, _⟩ := reflects.in_shows b arc member
  have enters : arc.edge ∈ g.insOf b := reflects.ins b ▸ List.mem_map_of_mem member
  obtain ⟨source, edge', found', _, _, atTarget⟩ := (wired.mem_ins b _).mp enters
  cases found.some_unique found'
  exact ⟨edge, found, used, atSource, atTarget⟩

/-- The predecessors of a block are the sources of its incoming edges, and all of them are in use. -/
theorem Reflects.mem_preds (reflects : g.Reflects f) (wired : g.Wired) (b c : Fin g.size) :
    c ∈ ((f.ins.get b).map Arc.source).filter (fun b => !(g.payload b).removed) ↔ f.Steps c b := by
  rw [reflects.steps_iff wired, List.mem_filter, List.mem_map]
  constructor
  · intro pred
    obtain ⟨⟨arc, member, rfl⟩, _⟩ := pred
    exact ⟨arc.edge, reflects.in_joins wired member⟩
  · intro one
    obtain ⟨e, joins⟩ := one
    have enters := (wired.mem_ins b e).mpr ⟨_, joins⟩
    rw [← reflects.ins b] at enters
    obtain ⟨arc, member, rfl⟩ := List.mem_map.mp enters
    have source := ((reflects.in_joins wired member).unique joins).1
    obtain ⟨block, found, used⟩ := (wired.ends_live _ _ _ joins).1
    rw [payload_found] at found
    cases found
    exact ⟨⟨arc, member, Fin.ext source⟩, by simpa using used⟩

theorem node_eq_ok {b : BlockId} {i : Fin g.size} : g.node b = .ok i ↔ i.val = b := by
  unfold node
  split
  · rename_i inside
    rw [Except.ok.injEq, Fin.ext_iff]
    exact eq_comm
  · rename_i outside
    constructor
    · intro run
      cases run
    · intro same
      exact absurd (same ▸ i.isLt) outside

theorem nodes_names {names : List BlockId} {nodes : List (Fin g.size)} (run : names.mapM g.node = .ok nodes) :
    nodes.map Fin.val = names := by
  have pairs := mapM_eq_ok.mp run
  clear run
  induction pairs with
  | nil => rfl
  | cons named _ ih => rw [List.map_cons, ih, node_eq_ok.mp named]

theorem Reflects.reachable_iff (reflects : g.Reflects f) (wired : g.Wired) (inside : g.start < g.size)
    (b : Fin g.size) : f.Reaches ⟨g.start, inside⟩ b ↔ g.Reachable b := by
  rw [Reachable, reflects.reaches_iff wired ⟨g.start, inside⟩]
  constructor
  · intro reaches
    exact ⟨b, rfl, reaches⟩
  · intro reaches
    obtain ⟨i, same, reaches⟩ := reaches
    exact Fin.ext same ▸ reaches

/-- The numbers of the last search serve to find dominators. -/
theorem Searched.surveyed (searched : g.Searched) (wired : g.Wired) (reflects : g.Reflects f) :
    ∃ order, g.reversePostorder.mapM g.node = .ok order ∧
      f.Surveyed (fun b => !(g.payload b).removed) (fun b => (g.payload b).postorder) order
        ⟨g.start, searched.inside⟩ := by
  obtain ⟨order, run⟩ : ∃ order, g.reversePostorder.mapM g.node = .ok order := by
    refine mapM_total fun b member => ?_
    have reached := (searched.listed b).mp (List.mem_reverse.mp member)
    exact ⟨⟨b, wired.reachable_lt searched.inside reached⟩, node_eq_ok.mpr rfl⟩
  have names : order.map Fin.val = g.postorder.reverse := nodes_names run
  have listed (b : Fin g.size) : b ∈ order ↔ g.Reachable b := by
    have turned : b.val ∈ g.postorder.reverse ↔ b.val ∈ g.postorder := List.mem_reverse
    rw [← searched.listed, ← turned, ← names, List.mem_map_of_injective Fin.val_injective]
  have number (b : Fin g.size) (member : b ∈ order) : (g.payload b).postorder = g.rank b :=
    searched.number b _ (payload_found b) ((listed b).mp member)
  refine ⟨order, run, reflects.mem_preds wired, ?_, ?_, ?_, ?_⟩
  · intro b
    rw [listed, reflects.reachable_iff wired searched.inside]
  · rw [List.pairwise_iff_forall_sublist]
    intro a b pair
    have members := pair.subset
    rw [number a (members (by simp)), number b (members (by simp))]
    have turned : [b.val, a.val].Sublist g.postorder := by
      have mapped := pair.map Fin.val
      rw [names] at mapped
      simpa using mapped.reverse
    exact idxOf_lt_of_sublist searched.once turned
  · intro b member
    rw [number b member]
    have position : g.rank b < g.postorder.length :=
      List.idxOf_lt_length_of_mem ((searched.listed b).mpr ((listed b).mp member))
    have length : g.postorder.length = order.length := by
      rw [← List.length_map Fin.val, names, List.length_reverse]
    have once : order.Nodup := by
      refine List.Nodup.of_map Fin.val ?_
      rw [names]
      exact List.nodup_reverse.mpr searched.once
    have bound := once.length_le_card
    rw [Fintype.card_fin] at bound
    omega
  · intro b member other
    obtain ⟨c, one, reached, higher⟩ :=
      (searched.parent b ((listed b).mp member)).resolve_left fun same => other (Fin.ext same)
    have inside := wired.reachable_lt searched.inside reached
    have member' : (⟨c, inside⟩ : Fin g.size) ∈ order := (listed ⟨c, inside⟩).mpr reached
    refine ⟨⟨c, inside⟩, (reflects.steps_iff wired _ _).mpr one, member', ?_⟩
    rw [number b member, number _ member']
    exact higher

/-- The dominators of a searched graph are found without a fault. -/
theorem Searched.dominators (searched : g.Searched) (wired : g.Wired) :
    ∃ f t, g.flow = .ok f ∧ g.Reflects f ∧ g.dominators = .ok t ∧ f.Resolved ⟨g.start, searched.inside⟩ t := by
  obtain ⟨f, flowed, reflects⟩ := wired.flow_total
  obtain ⟨order, listed, survey⟩ := searched.surveyed wired reflects
  obtain ⟨t, run, resolved⟩ := survey.resolved
  refine ⟨f, t, flowed, reflects, ?_, resolved⟩
  simp only [Graph.dominators, flowed, node_eq_ok.mpr (rfl : (⟨g.start, searched.inside⟩ : Fin g.size).val = g.start),
    listed, ok_bind]
  exact run

theorem Reflects.dominates_iff (reflects : g.Reflects f) (wired : g.Wired) (inside : g.start < g.size)
    (a b : Fin g.size) : Unstack.Dominates f.Steps ⟨g.start, inside⟩ a b ↔ g.Dominates a b := by
  refine dominates_place Fin.val_injective (reflects.steps_iff wired) fun x y one => ?_
  obtain ⟨e, joins⟩ := one
  exact ⟨⟨y, (wired.ends_live _ _ _ joins).2.lt⟩, rfl⟩

/-- After a search in depth the table of dominators is found. It is empty for a block that the start does not
reach, names the start for itself, and for every other block names its only immediate dominator; going up
in it decides dominance. -/
theorem dominators_immediate {before g : Graph} (wired : before.Wired) (numbered : before.renumber = .ok g) :
    ∃ idoms, g.dominators = .ok idoms ∧
      (∀ b : Fin g.size, ¬ g.Reachable b → idoms.get b = none) ∧
      (∀ b : Fin g.size, b.val = g.start → idoms.get b = some b) ∧
      (∀ b : Fin g.size, g.Reachable b → b.val ≠ g.start →
        ∃ d : Fin g.size, idoms.get b = some d ∧ g.IsImmediate d b ∧ ∀ d', g.IsImmediate d' b → d' = d) ∧
      ∀ a b : Fin g.size, g.Reachable b →
        ∃ r, Flow.dominates idoms a b = .ok r ∧ (r = true ↔ g.Dominates a b) := by
  obtain ⟨renumbered, searched⟩ := wired.searched numbered
  have wired' := renumbered.wired wired
  obtain ⟨f, idoms, _, reflects, run, resolved⟩ := searched.dominators wired'
  have reached_iff := reflects.reachable_iff wired' searched.inside
  have dominates_iff := reflects.dominates_iff wired' searched.inside
  refine ⟨idoms, run, fun b unreached => ?_, fun b atStart => ?_, fun b reached other => ?_, fun a b reached => ?_⟩
  · exact resolved.unknown b (mt (reached_iff b).mp unreached)
  · have same : b = ⟨g.start, searched.inside⟩ := Fin.ext atStart
    rw [same]
    exact resolved.root
  · obtain ⟨d, found, apart, reachedD, dominates, nearest⟩ :=
      resolved.immediate b ((reached_iff b).mpr reached) fun same => other (congrArg Fin.val same)
    have strict : g.Dominates d b ∧ d.val ≠ b.val := ⟨(dominates_iff d b).mp dominates, fun same => apart (Fin.ext same)⟩
    have below (a : BlockId) (upper : g.Dominates a b) (different : a ≠ b.val) : g.Dominates a d := by
      have inside := wired'.reachable_lt searched.inside (upper.reaches reached)
      refine (dominates_iff ⟨a, inside⟩ d).mp (nearest ⟨a, inside⟩ ?_ fun same => different (congrArg Fin.val same))
      exact (dominates_iff ⟨a, inside⟩ b).mpr upper
    refine ⟨d, found, ⟨strict, below⟩, fun d' immediate => ?_⟩
    obtain ⟨⟨upper, different⟩, nearest'⟩ := immediate
    have reached' : g.Reachable d' := upper.reaches reached
    have inside := wired'.reachable_lt searched.inside reached'
    have same : (⟨d', inside⟩ : Fin g.size) = d := by
      refine resolved.antisymm _ d ((reached_iff _).mpr reached') reachedD ?_ ?_
      · exact (dominates_iff _ d).mpr (below d' upper different)
      · exact (dominates_iff d _).mpr (nearest' d strict.1 strict.2)
    exact congrArg Fin.val same
  · obtain ⟨r, run, answer⟩ := resolved.dominates a b ((reached_iff b).mpr reached)
    exact ⟨r, run, answer.trans (dominates_iff a b)⟩

/-- A loop that is entered in two places, and behind the end of the method a jump into it. -/
def crossing : MethodInput where
  info := MethodInfo.plain "crossing" 1 1
  ops := [⟨0, 0, -1, .load .int 0⟩, ⟨0, 0, -1, .jumpZero .int .eq 4⟩, ⟨0, 0, -1, .inc .int 0 1⟩,
    ⟨0, 0, -1, .goto 4⟩, ⟨0, 0, -1, .inc .int 0 (-1)⟩, ⟨0, 0, -1, .load .int 0⟩, ⟨0, 0, -1, .jumpZero .int .ne 2⟩,
    ⟨0, 0, -1, .leave .void⟩, ⟨0, 0, -1, .goto 2⟩]
  exceptions := []

theorem dominators_immediate_crossing : ∃ before g, (Graph.ofMethod crossing).run = .ok (.ok before) ∧
    before.Wired ∧ before.renumber = .ok g ∧ ∃ idoms, g.dominators = .ok idoms ∧
      (∀ b : Fin g.size, ¬ g.Reachable b → idoms.get b = none) ∧
      (∀ b : Fin g.size, b.val = g.start → idoms.get b = some b) ∧
      (∀ b : Fin g.size, g.Reachable b → b.val ≠ g.start →
        ∃ d : Fin g.size, idoms.get b = some d ∧ g.IsImmediate d b ∧ ∀ d', g.IsImmediate d' b → d' = d) ∧
      ∀ a b : Fin g.size, g.Reachable b →
        ∃ r, Flow.dominates idoms a b = .ok r ∧ (r = true ↔ g.Dominates a b) := by
  obtain ⟨before, run⟩ := Building.run_of_result (x := Graph.ofMethod crossing) (by decide +kernel)
  have built := (Graph.ofMethod_yields crossing).of_run run
  obtain ⟨g, numbered, _⟩ := built.wired.renumber built.start_lt
  exact ⟨before, g, run, built.wired, numbered, dominators_immediate built.wired numbered⟩

end Graph

end Unstack
