import Unstack.Proofs.Graph.Search

namespace Unstack.Graph

variable {g : Graph} {b whenTrue whenFalse : BlockId} {e : EdgeId}

def without (g : Graph) (gone : List EdgeId) : Graph :=
  { g with
    blocks := g.blocks.map fun block =>
      { block with ins := block.ins.filter (· ∉ gone), outs := block.outs.filter (· ∉ gone) }
    edges := g.edges.mapIdx fun e edge => { edge with removed := edge.removed || gone.contains e } }

section Without

variable (gone : List EdgeId)

theorem without_block (b : BlockId) :
    (g.without gone).blocks[b]? = g.blocks[b]?.map fun block =>
      { block with ins := block.ins.filter (· ∉ gone), outs := block.outs.filter (· ∉ gone) } := by
  simp [without]

theorem without_edge (e : EdgeId) :
    (g.without gone).edges[e]? = g.edges[e]?.map fun edge =>
      { edge with removed := edge.removed || gone.contains e } := by
  simp [without]

@[simp] theorem without_size : (g.without gone).blocks.size = g.blocks.size := by simp [without]

@[simp] theorem without_edges_size : (g.without gone).edges.size = g.edges.size := by simp [without]

theorem without_outsOf (b : BlockId) : (g.without gone).outsOf b = (g.outsOf b).filter (· ∉ gone) := by
  simp only [outsOf, without_block]
  cases g.blocks[b]? <;> simp

theorem without_insOf (b : BlockId) : (g.without gone).insOf b = (g.insOf b).filter (· ∉ gone) := by
  simp only [insOf, without_block]
  cases g.blocks[b]? <;> simp

theorem without_joins (e : EdgeId) (source target : BlockId) :
    (g.without gone).Joins e source target ↔ e ∉ gone ∧ g.Joins e source target := by
  simp only [Joins, without_edge, Option.map_eq_some_iff]
  constructor
  · intro joins
    obtain ⟨_, ⟨edge, found, rfl⟩, used, atSource, atTarget⟩ := joins
    simp only [Bool.or_eq_false_iff, List.contains_eq_mem, decide_eq_false_iff_not] at used
    exact ⟨used.2, edge, found, used.1, atSource, atTarget⟩
  · intro joins
    obtain ⟨kept, edge, found, used, atSource, atTarget⟩ := joins
    exact ⟨_, ⟨edge, found, rfl⟩, by simp [used, kept], atSource, atTarget⟩

theorem without_live (b : BlockId) : (g.without gone).Live b ↔ g.Live b := by
  simp only [Live, without_block, Option.map_eq_some_iff]
  constructor
  · intro live
    obtain ⟨_, ⟨block, found, rfl⟩, used⟩ := live
    exact ⟨block, found, used⟩
  · intro live
    obtain ⟨block, found, used⟩ := live
    exact ⟨_, ⟨block, found, rfl⟩, used⟩

theorem Wired.without (wired : g.Wired) : (g.without gone).Wired where
  outs_nodup b := by
    rw [without_outsOf]
    exact (wired.outs_nodup b).filter _
  ins_nodup b := by
    rw [without_insOf]
    exact (wired.ins_nodup b).filter _
  mem_outs b e := by
    simp only [without_outsOf, without_joins, List.mem_filter, decide_eq_true_eq, wired.mem_outs, exists_and_left]
    exact and_comm
  mem_ins b e := by
    simp only [without_insOf, without_joins, List.mem_filter, decide_eq_true_eq, wired.mem_ins, exists_and_left]
    exact and_comm
  ends_live e source target joins := by
    have before := ((without_joins gone e source target).mp joins).2
    have ends := wired.ends_live e source target before
    exact ⟨(without_live gone source).mpr ends.1, (without_live gone target).mpr ends.2⟩

end Without

theorem without_nil : g.without [] = g := by
  have edges : (g.without []).edges = g.edges := by
    apply Array.ext_getElem?
    simp [without]
  calc g.without [] = { g with blocks := (g.without []).blocks, edges := (g.without []).edges } := rfl
    _ = g := by rw [edges]; simp [without]

theorem without_append (first second : List EdgeId) :
    (g.without first).without second = g.without (first ++ second) := by
  have blocks (block : Block) : ({ block with
      ins := (block.ins.filter (· ∉ first)).filter (· ∉ second)
      outs := (block.outs.filter (· ∉ first)).filter (· ∉ second) } : Block) =
      { block with ins := block.ins.filter (· ∉ first ++ second), outs := block.outs.filter (· ∉ first ++ second) } := by
    simp only [List.filter_filter, List.mem_append, not_or, Bool.decide_and, Bool.and_comm]
  simp only [without, Array.map_map, Array.mapIdx_mapIdx, Function.comp_def, blocks, List.contains_append, Bool.or_assoc]

theorem Wired.outs_without (wired : g.Wired) {block : Block} (found : g.blocks[b]? = some block)
    (elsewhere : ∀ target, ¬ g.Joins e b target) : block.outs.filter (· ∉ [e]) = block.outs := by
  refine List.filter_eq_self.mpr fun e' member => ?_
  rw [← outsOf_eq found] at member
  obtain ⟨target, joins⟩ := (wired.mem_outs b e').mp member
  simp only [List.mem_singleton, decide_eq_true_eq]
  intro same
  exact elsewhere target (same ▸ joins)

theorem Wired.ins_without (wired : g.Wired) {block : Block} (found : g.blocks[b]? = some block)
    (elsewhere : ∀ source, ¬ g.Joins e source b) : block.ins.filter (· ∉ [e]) = block.ins := by
  refine List.filter_eq_self.mpr fun e' member => ?_
  rw [← insOf_eq found] at member
  obtain ⟨source, joins⟩ := (wired.mem_ins b e').mp member
  simp only [List.mem_singleton, decide_eq_true_eq]
  intro same
  exact elsewhere source (same ▸ joins)

theorem Wired.without_removed (wired : g.Wired) {edge : Edge} (found : g.edges[e]? = some edge)
    (gone : edge.removed = true) : g.without [e] = g := by
  have unused (source target : BlockId) : ¬ g.Joins e source target := by
    intro joins
    obtain ⟨edge', found', used, _⟩ := joins
    cases found.some_unique found'
    simp [gone] at used
  have blocks : (g.without [e]).blocks = g.blocks := by
    apply Array.ext_getElem?
    intro b
    rw [without_block]
    cases atBlock : g.blocks[b]? with
    | none => rfl
    | some block =>
      rw [Option.map_some, wired.ins_without atBlock (unused · b), wired.outs_without atBlock (unused b)]
  have edges : (g.without [e]).edges = g.edges := by
    apply Array.ext_getElem?
    intro e'
    rw [without_edge]
    by_cases here : e' = e
    · subst here
      rw [found, Option.map_some]
      simp [← gone]
    · simp [here]
  calc g.without [e] = { g with blocks := (g.without [e]).blocks, edges := (g.without [e]).edges } := rfl
    _ = g := by rw [blocks, edges]

/-- The two lists in which an edge is looked for are the only ones where it stands. -/
theorem Wired.removeEdge_eq (wired : g.Wired) (inside : e < g.edges.size) : g.removeEdge e = .ok (g.without [e]) := by
  have found := Array.getElem?_eq_getElem inside
  generalize g.edges[e] = edge at found
  simp only [removeEdge, edge_eq_ok.mpr found, ok_bind]
  by_cases gone : edge.removed = true
  · rw [if_pos gone, wired.without_removed found gone]
    rfl
  · have used : edge.removed = false := by simpa using gone
    have joins : g.Joins e edge.source edge.target := ⟨edge, found, used, rfl, rfl⟩
    have ends := wired.ends_live e _ _ joins
    rw [if_neg gone, modifyBlock_eq ends.1.lt, ok_bind, modifyBlock_eq (by simpa using ends.2.lt), ok_bind,
      modifyEdge_eq (by exact inside)]
    have blocks : ((g.blocks.modify edge.source fun block => { block with outs := block.outs.filter (· != e) }).modify
        edge.target fun block => { block with ins := block.ins.filter (· != e) }) = (g.without [e]).blocks := by
      apply Array.ext_getElem?
      intro b
      rw [without_block, Array.getElem?_modify, Array.getElem?_modify]
      cases atBlock : g.blocks[b]? with
      | none => simp
      | some block =>
        have one (es : List EdgeId) : es.filter (· != e) = es.filter (· ∉ [e]) :=
          List.filter_congr fun e' _ => by simp [bne, beq_eq_decide]
        have outs : (if edge.source = b then block.outs.filter (· != e) else block.outs) =
            block.outs.filter (· ∉ [e]) := by
          split
          · exact one block.outs
          · rename_i elsewhere
            exact (wired.outs_without atBlock fun _ other => elsewhere (joins.unique other).1).symm
        have ins : (if edge.target = b then block.ins.filter (· != e) else block.ins) =
            block.ins.filter (· ∉ [e]) := by
          split
          · exact one block.ins
          · rename_i elsewhere
            exact (wired.ins_without atBlock fun _ other => elsewhere (joins.unique other).2).symm
        simp only [Option.map_some, ← outs, ← ins]
        by_cases atSource : edge.source = b <;> by_cases atTarget : edge.target = b <;> simp [atSource, atTarget]
    have edges : (g.edges.modify e fun edge => { edge with removed := true }) = (g.without [e]).edges := by
      apply Array.ext_getElem?
      intro e'
      rw [without_edge, Array.getElem?_modify]
      by_cases here : e = e'
      · subst here
        simp [found]
      · simp [here, Ne.symm here]
    congr 1
    calc _ = ({ g with blocks := (g.without [e]).blocks, edges := (g.without [e]).edges } : Graph) := by
          rw [← blocks, ← edges]
      _ = g.without [e] := rfl

/-- Edges are taken out one by one without a fault. -/
theorem Wired.removeEdges_eq (wired : g.Wired) {gone : List EdgeId} (inside : ∀ e ∈ gone, e < g.edges.size) :
    g.removeEdges gone = .ok (g.without gone) := by
  induction gone generalizing g with
  | nil =>
    rw [without_nil]
    rfl
  | cons e rest ih =>
    have first := wired.removeEdge_eq (inside e (.head _))
    have others := ih (wired.without [e]) fun e' member => by
      simpa using inside e' (.tail e member)
    rw [removeEdges, List.foldlM_cons, first, ok_bind]
    rw [without_append] at others
    exact others

/-- Of the edges that leave a block those that give way are taken out. -/
theorem Wired.cleanupOuts_eq (wired : g.Wired) (inside : b < g.blocks.size) :
    ∃ stale, g.cleanupOuts b = .ok (g.without stale) := by
  have found := Array.getElem?_eq_getElem inside
  obtain ⟨outs, leaving⟩ := wired.outs_total found
  have listed := ((outs_eq_ok found).mp leaving).2
  refine ⟨staleOuts false false false outs.reverse, ?_⟩
  have within (seq yes no : Bool) (edges : List (EdgeId × Edge)) :
      ∀ e ∈ staleOuts seq yes no edges, ∃ edge, (e, edge) ∈ edges := by
    intro e member
    fun_induction staleOuts seq yes no edges with
    | case1 => cases member
    | case2 seq yes no e' edge rest kind ih | case3 seq yes no e' edge rest kind ih
    | case4 seq yes no e' edge rest kind ih =>
      rcases List.mem_append.mp member with here | later
      · split at here
        · exact ⟨edge, by simp [List.mem_singleton.mp here]⟩
        · cases here
      · obtain ⟨edge', later⟩ := ih later
        exact ⟨edge', .tail _ later⟩
    | case5 seq yes no e' edge rest _ _ _ ih =>
      obtain ⟨edge', later⟩ := ih member
      exact ⟨edge', .tail _ later⟩
  simp only [cleanupOuts, leaving, ok_bind]
  refine wired.removeEdges_eq fun e member => ?_
  obtain ⟨edge, member⟩ := within _ _ _ _ e member
  exact (listed (e, edge) (List.mem_reverse.mp member)).lt_size

theorem Wired.setSucc_eq (wired : g.Wired) {dest : BlockId} (live : g.Live b) (liveDest : g.Live dest) :
    ∃ stale, g.setSucc b dest = .ok (g.edges.size, (g.withEdge b dest .sequence).without stale) := by
  obtain ⟨stale, run⟩ := (wired.withEdge .sequence live liveDest).cleanupOuts_eq (by simpa using live.lt)
  refine ⟨stale, ?_⟩
  simp only [setSucc, addEdge_eq .sequence live.lt liveDest.lt, ok_bind, run]
  rfl

theorem Wired.withConds (wired : g.Wired) (live : g.Live b) (liveTrue : g.Live whenTrue)
    (liveFalse : g.Live whenFalse) (falseFirst : Bool) : (g.withConds b whenTrue whenFalse falseFirst).Wired := by
  cases falseFirst with
  | true =>
    exact (wired.withEdge .whenFalse live liveFalse).withEdge .whenTrue (withEdge_live _ _ _ live)
      (withEdge_live _ _ _ liveTrue)
  | false =>
    exact (wired.withEdge .whenTrue live liveTrue).withEdge .whenFalse (withEdge_live _ _ _ live)
      (withEdge_live _ _ _ liveFalse)

theorem Wired.setConds_eq (wired : g.Wired) (live : g.Live b) (liveTrue : g.Live whenTrue)
    (liveFalse : g.Live whenFalse) :
    ∃ falseFirst stale, g.setConds b whenTrue whenFalse =
      .ok ((g.withConds b whenTrue whenFalse falseFirst).without stale) := by
  have ⟨yes, atTrue, _⟩ := liveTrue
  have ⟨no, atFalse, _⟩ := liveFalse
  have both := wired.withConds live liveTrue liveFalse
  simp only [setConds, block_eq_ok.mpr atTrue, block_eq_ok.mpr atFalse, ok_bind]
  by_cases falseFirst : no.pc ≤ yes.pc
  · obtain ⟨stale, run⟩ := (both true).cleanupOuts_eq (b := b) (by simpa [Graph.withConds] using live.lt)
    refine ⟨true, stale, ?_⟩
    rw [if_pos falseFirst, addEdge_eq _ live.lt liveFalse.lt, ok_bind, if_pos falseFirst,
      addEdge_eq _ (by simpa using live.lt) (by simpa using liveTrue.lt), ok_bind]
    exact run
  · obtain ⟨stale, run⟩ := (both false).cleanupOuts_eq (b := b) (by simpa [Graph.withConds] using live.lt)
    refine ⟨false, stale, ?_⟩
    rw [if_neg falseFirst, addEdge_eq _ live.lt liveTrue.lt, ok_bind, if_neg falseFirst,
      addEdge_eq _ (by simpa using live.lt) (by simpa using liveFalse.lt), ok_bind]
    exact run

def withoutBlock (g : Graph) (b : BlockId) : Graph :=
  { g.without (g.insOf b ++ g.outsOf b) with
    blocks := (g.without (g.insOf b ++ g.outsOf b)).blocks.modify b fun block => { block with removed := true } }

section WithoutBlock

variable (b : BlockId)

theorem withoutBlock_block (i : BlockId) :
    (g.withoutBlock b).blocks[i]? = g.blocks[i]?.map fun block =>
      { block with
        ins := block.ins.filter (· ∉ g.insOf b ++ g.outsOf b)
        outs := block.outs.filter (· ∉ g.insOf b ++ g.outsOf b)
        removed := block.removed || b == i } := by
  simp only [withoutBlock, Array.getElem?_modify, without_block]
  by_cases here : b = i <;> cases g.blocks[i]? <;> simp [here]

@[simp] theorem withoutBlock_size : (g.withoutBlock b).blocks.size = g.blocks.size := by simp [withoutBlock]

theorem withoutBlock_outsOf (i : BlockId) :
    (g.withoutBlock b).outsOf i = (g.without (g.insOf b ++ g.outsOf b)).outsOf i := by
  simp only [outsOf, withoutBlock_block, without_block, Option.map_map]
  rfl

theorem withoutBlock_insOf (i : BlockId) :
    (g.withoutBlock b).insOf i = (g.without (g.insOf b ++ g.outsOf b)).insOf i := by
  simp only [insOf, withoutBlock_block, without_block, Option.map_map]
  rfl

theorem withoutBlock_live (i : BlockId) : (g.withoutBlock b).Live i ↔ g.Live i ∧ i ≠ b := by
  simp only [Live, withoutBlock_block, Option.map_eq_some_iff]
  constructor
  · intro live
    obtain ⟨_, ⟨block, found, rfl⟩, used⟩ := live
    simp only [Bool.or_eq_false_iff, beq_eq_false_iff_ne] at used
    exact ⟨⟨block, found, used.1⟩, used.2.symm⟩
  · intro live
    obtain ⟨⟨block, found, used⟩, other⟩ := live
    exact ⟨_, ⟨block, found, rfl⟩, by simp [used, other.symm]⟩

/-- The edges of a block go with it, and no others. -/
theorem Wired.withoutBlock_joins (wired : g.Wired) (e : EdgeId) (source target : BlockId) :
    (g.withoutBlock b).Joins e source target ↔ g.Joins e source target ∧ source ≠ b ∧ target ≠ b := by
  have edges : (g.withoutBlock b).Joins e source target ↔ (g.without (g.insOf b ++ g.outsOf b)).Joins e source target :=
    Iff.rfl
  rw [edges, without_joins, List.mem_append, not_or, wired.mem_ins, wired.mem_outs]
  constructor
  · intro kept
    obtain ⟨⟨notIn, notOut⟩, joins⟩ := kept
    exact ⟨joins, fun same => notOut ⟨target, same ▸ joins⟩, fun same => notIn ⟨source, same ▸ joins⟩⟩
  · intro kept
    obtain ⟨joins, notSource, notTarget⟩ := kept
    refine ⟨⟨?_, ?_⟩, joins⟩
    · intro entering
      obtain ⟨_, other⟩ := entering
      exact notTarget (joins.unique other).2
    · intro leaving
      obtain ⟨_, other⟩ := leaving
      exact notSource (joins.unique other).1

theorem Wired.withoutBlock (wired : g.Wired) : (g.withoutBlock b).Wired where
  outs_nodup i := by
    rw [withoutBlock_outsOf]
    exact (wired.without _).outs_nodup i
  ins_nodup i := by
    rw [withoutBlock_insOf]
    exact (wired.without _).ins_nodup i
  mem_outs i e := by
    rw [withoutBlock_outsOf]
    exact (wired.without _).mem_outs i e
  mem_ins i e := by
    rw [withoutBlock_insOf]
    exact (wired.without _).mem_ins i e
  ends_live e source target joins := by
    obtain ⟨before, notSource, notTarget⟩ := (wired.withoutBlock_joins b e source target).mp joins
    have ends := wired.ends_live e source target before
    exact ⟨(withoutBlock_live b source).mpr ⟨ends.1, notSource⟩, (withoutBlock_live b target).mpr ⟨ends.2, notTarget⟩⟩

end WithoutBlock

theorem Wired.removeBlock_eq (wired : g.Wired) (inside : b < g.blocks.size) :
    g.removeBlock b = .ok (g.withoutBlock b) := by
  have found := Array.getElem?_eq_getElem inside
  have listed (e : EdgeId) (member : e ∈ g.blocks[b].ins ++ g.blocks[b].outs) : e < g.edges.size := by
    rcases List.mem_append.mp member with entering | leaving
    · exact wired.ins_lt found e entering
    · exact wired.outs_lt found e leaving
  simp only [removeBlock, block_eq_ok.mpr found, ok_bind, wired.removeEdges_eq listed]
  rw [modifyBlock_eq (by simpa using inside), Graph.withoutBlock, insOf_eq found, outsOf_eq found]

def withoutBlocks (g : Graph) (dead : List BlockId) : Graph := dead.foldl withoutBlock g

@[simp] theorem withoutBlocks_size (dead : List BlockId) : (g.withoutBlocks dead).blocks.size = g.blocks.size := by
  induction dead generalizing g with
  | nil => rfl
  | cons b rest ih => exact ih.trans (withoutBlock_size b)

theorem Wired.withoutBlocks (wired : g.Wired) (dead : List BlockId) : (g.withoutBlocks dead).Wired := by
  induction dead generalizing g with
  | nil => exact wired
  | cons b rest ih => exact ih (wired.withoutBlock b)

theorem withoutBlocks_live (dead : List BlockId) (i : BlockId) :
    (g.withoutBlocks dead).Live i ↔ g.Live i ∧ i ∉ dead := by
  induction dead generalizing g with
  | nil => simp [Graph.withoutBlocks]
  | cons b rest ih =>
    rw [Graph.withoutBlocks, List.foldl_cons]
    refine ih.trans ?_
    rw [withoutBlock_live, List.mem_cons, not_or, and_assoc]

theorem Wired.withoutBlocks_joins (wired : g.Wired) (dead : List BlockId) (e : EdgeId) (source target : BlockId) :
    (g.withoutBlocks dead).Joins e source target ↔ g.Joins e source target ∧ source ∉ dead ∧ target ∉ dead := by
  induction dead generalizing g with
  | nil => simp [Graph.withoutBlocks]
  | cons b rest ih =>
    rw [Graph.withoutBlocks, List.foldl_cons]
    refine (ih (wired.withoutBlock b)).trans ?_
    rw [wired.withoutBlock_joins]
    simp only [List.mem_cons, not_or]
    tauto

theorem Wired.removeBlocks_eq (wired : g.Wired) {dead : List BlockId} (inside : ∀ b ∈ dead, b < g.blocks.size) :
    dead.foldlM removeBlock g = .ok (g.withoutBlocks dead) := by
  induction dead generalizing g with
  | nil => rfl
  | cons b rest ih =>
    rw [List.foldlM_cons, wired.removeBlock_eq (inside b (.head _)), ok_bind]
    refine ih (wired.withoutBlock b) fun b' member => ?_
    simpa using inside b' (.tail b member)

/-- What is taken out are the blocks in use that the start does not reach. -/
theorem Wired.removeUnreachable_eq (wired : g.Wired) (inside : g.start < g.size) :
    ∃ dead, g.removeUnreachable = .ok (dead.length, g.withoutBlocks dead) ∧
      ∀ b, b ∈ dead ↔ g.Live b ∧ ¬ g.Reachable b := by
  obtain ⟨f, run, reflects⟩ := wired.flow_total
  simp only [Graph.removeUnreachable, run, node, dif_pos inside, ok_bind]
  generalize entered : (f.walk ⟨g.start, inside⟩).seen.map Fin.val = reached
  have reached_iff (b : BlockId) : b ∈ reached ↔ g.Reachable b := by
    rw [← entered, List.mem_map, Reachable, reflects.reaches_iff wired ⟨g.start, inside⟩]
    simp only [Flow.mem_walk_seen, and_comm]
  have dead_iff (b : BlockId) :
      b ∈ (g.live.map Prod.fst).filter (!reached.contains ·) ↔ g.Live b ∧ ¬ g.Reachable b := by
    simp only [List.mem_filter, List.mem_map, Prod.exists, mem_live, Bool.not_eq_true', List.contains_eq_mem,
      decide_eq_false_iff_not, reached_iff, Live]
    simp
  refine ⟨_, ?_, dead_iff⟩
  have listed (b : BlockId) (member : b ∈ (g.live.map Prod.fst).filter (!reached.contains ·)) : b < g.blocks.size :=
    ((dead_iff b).mp member).1.lt
  rw [wired.removeBlocks_eq listed]
  rfl

section MovedIns

variable {source dest : BlockId} {block : Block}

theorem movedIns_block (g : Graph) (source dest : BlockId) (entering : List EdgeId) (i : BlockId) :
    (g.movedIns source dest entering).blocks[i]? = g.blocks[i]?.map fun block =>
      { block with ins := (if source = i then [] else block.ins) ++ if dest = i then entering else [] } := by
  simp only [movedIns, Array.getElem?_modify]
  by_cases atSource : source = i <;> by_cases atDest : dest = i <;> cases g.blocks[i]? <;> simp [atSource, atDest]

@[simp] theorem movedIns_size (g : Graph) (source dest : BlockId) (entering : List EdgeId) :
    (g.movedIns source dest entering).blocks.size = g.blocks.size := by
  simp [movedIns]

theorem movedIns_outsOf (g : Graph) (source dest : BlockId) (entering : List EdgeId) (i : BlockId) :
    (g.movedIns source dest entering).outsOf i = g.outsOf i := by
  simp only [outsOf, movedIns_block, Option.map_map]
  rfl

theorem movedIns_insOf (g : Graph) (source : BlockId) (inside : dest < g.blocks.size) (entering : List EdgeId)
    (i : BlockId) :
    (g.movedIns source dest entering).insOf i =
      (if source = i then [] else g.insOf i) ++ if dest = i then entering else [] := by
  simp only [insOf, movedIns_block]
  cases found : g.blocks[i]? with
  | some block => rfl
  | none =>
    have elsewhere : dest ≠ i := by
      intro same
      rw [← same, Array.getElem?_eq_getElem inside] at found
      cases found
    simp [elsewhere]

theorem movedIns_live (g : Graph) (source dest : BlockId) (entering : List EdgeId) (i : BlockId) :
    (g.movedIns source dest entering).Live i ↔ g.Live i := by
  simp only [Live, movedIns_block, Option.map_eq_some_iff]
  constructor
  · intro live
    obtain ⟨_, ⟨block, found, rfl⟩, used⟩ := live
    exact ⟨block, found, used⟩
  · intro live
    obtain ⟨block, found, used⟩ := live
    exact ⟨_, ⟨block, found, rfl⟩, used⟩

theorem Wired.movedIns_joins (wired : g.Wired) (found : g.blocks[source]? = some block) (dest : BlockId) (e : EdgeId)
    (a b : BlockId) :
    (g.movedIns source dest block.ins).Joins e a b ↔ ∃ old, g.Joins e a old ∧ b = if old = source then dest else old := by
  have entering {edge : Edge} (atEdge : g.edges[e]? = some edge) := wired.mem_ins_iff found atEdge
  simp only [Joins, movedIns, Array.getElem?_mapIdx, Option.map_eq_some_iff]
  constructor
  · intro joins
    obtain ⟨_, ⟨edge, atEdge, rfl⟩, used, rfl, rfl⟩ := joins
    refine ⟨edge.target, ⟨edge, atEdge, ?_, ?_, rfl⟩, ?_⟩
    · split at used <;> exact used
    · split <;> rfl
    · have used' : edge.removed = false := by split at used <;> exact used
      simp only [entering atEdge used']
      split <;> rfl
  · intro joins
    obtain ⟨_, ⟨edge, atEdge, used, rfl, rfl⟩, rfl⟩ := joins
    refine ⟨_, ⟨edge, atEdge, rfl⟩, ?_⟩
    simp only [entering atEdge used]
    split <;> exact ⟨used, rfl, rfl⟩

/-- Nothing changes its source, and what entered the one block enters the other. A block that nothing enters
may be moved anywhere. -/
theorem Wired.movedIns (wired : g.Wired) (found : g.blocks[source]? = some block) (inside : dest < g.blocks.size)
    (onto : g.Live dest ∨ block.ins = []) : (g.movedIns source dest block.ins).Wired where
  outs_nodup i := by
    rw [movedIns_outsOf]
    exact wired.outs_nodup i
  ins_nodup i := by
    have entering := insOf_eq found
    rw [movedIns_insOf g source inside, ← entering]
    by_cases atSource : source = i <;> by_cases atDest : dest = i
    · simpa [atSource, atDest] using wired.ins_nodup i
    · simp [atSource, atDest]
    · simp only [atSource, atDest, if_false, if_true]
      refine List.nodup_append.mpr ⟨wired.ins_nodup i, wired.ins_nodup source, ?_⟩
      intro e member e' member' same
      obtain ⟨_, joins⟩ := (wired.mem_ins i e).mp member
      obtain ⟨_, joins'⟩ := (wired.mem_ins source e').mp member'
      exact atSource ((same ▸ joins).unique joins').2.symm
    · simpa [atSource, atDest] using wired.ins_nodup i
  mem_outs i e := by
    rw [movedIns_outsOf, wired.mem_outs]
    simp only [wired.movedIns_joins found]
    constructor
    · intro joins
      obtain ⟨old, joins⟩ := joins
      exact ⟨_, old, joins, rfl⟩
    · intro joins
      obtain ⟨_, old, joins, _⟩ := joins
      exact ⟨old, joins⟩
  mem_ins i e := by
    have entering : e ∈ block.ins ↔ ∃ a, g.Joins e a source := insOf_eq found ▸ wired.mem_ins source e
    rw [movedIns_insOf g source inside, List.mem_append]
    simp only [wired.movedIns_joins found]
    constructor
    · intro member
      rcases member with stays | moves
      · split at stays
        · cases stays
        · rename_i elsewhere
          obtain ⟨a, joins⟩ := (wired.mem_ins i e).mp stays
          exact ⟨a, i, joins, (if_neg (Ne.symm elsewhere)).symm⟩
      · split at moves
        · rename_i atDest
          obtain ⟨a, joins⟩ := entering.mp moves
          exact ⟨a, source, joins, by rw [if_pos rfl, atDest]⟩
        · cases moves
    · intro joins
      obtain ⟨a, old, joins, atTarget⟩ := joins
      by_cases moves : old = source
      · rw [if_pos moves] at atTarget
        rw [if_pos atTarget.symm]
        exact .inr (entering.mpr ⟨a, moves ▸ joins⟩)
      · rw [if_neg moves] at atTarget
        rw [if_neg (atTarget ▸ Ne.symm moves)]
        exact .inl ((wired.mem_ins i e).mpr ⟨a, atTarget ▸ joins⟩)
  ends_live e a b joins := by
    obtain ⟨old, before, atTarget⟩ := (wired.movedIns_joins found dest e a b).mp joins
    have ends := wired.ends_live e a old before
    rw [movedIns_live, movedIns_live]
    refine ⟨ends.1, ?_⟩
    by_cases moves : old = source
    · rw [atTarget, if_pos moves]
      refine onto.resolve_right fun none => ?_
      have entering := (wired.mem_ins source e).mpr ⟨a, moves ▸ before⟩
      rw [insOf_eq found, none] at entering
      cases entering
    · rw [atTarget, if_neg moves]
      exact ends.2

end MovedIns

/-- What `front` holds comes before what the block holds. -/
def prepend (front block : Block) : Block :=
  { block with
    ops := front.ops ++ block.ops
    stmts := front.stmts ++ block.stmts
    stack := block.stack ++ front.stack
    pc := front.pc
    line := front.line
    unreconstructed := block.unreconstructed || front.unreconstructed }

/-- The graph in which `b` holds what `pred` held as well. -/
def gathered (g : Graph) (b pred : BlockId) (front : Block) : Graph :=
  { g with
    blocks := (g.blocks.modify pred fun block => { block with ops := [], stmts := [], stack := [] }).modify b
      (prepend front) }

/-- The graph in which `pred` is a part of `b`. -/
def joined (g : Graph) (b pred : BlockId) (front : Block) : Graph :=
  ((g.gathered b pred front).movedIns pred b front.ins).withoutBlock pred

section Joined

variable {b pred : BlockId} {front : Block}

theorem gathered_wired (wired : g.Wired) (b pred : BlockId) (front : Block) : (g.gathered b pred front).Wired := by
  refine (wired.modify pred fun block => ?_).modify b fun block => ?_
  · exact ⟨rfl, rfl, rfl⟩
  · exact ⟨rfl, rfl, rfl⟩

theorem gathered_front (found : g.blocks[pred]? = some front) (b : BlockId) :
    ∃ block, (g.gathered b pred front).blocks[pred]? = some block ∧ block.ins = front.ins := by
  simp only [gathered, Array.getElem?_modify, found, if_true, Option.map_some]
  split
  · exact ⟨_, rfl, rfl⟩
  · exact ⟨_, rfl, rfl⟩

theorem gathered_live (b pred : BlockId) (front : Block) (i : BlockId) :
    (g.gathered b pred front).Live i ↔ g.Live i := by
  simp only [Live, gathered, Array.getElem?_modify]
  by_cases atBlock : b = i <;> by_cases atPred : pred = i <;> cases g.blocks[i]? <;> simp [atBlock, atPred, prepend]

/-- Joining meets no fault and leaves every edge listed at both ends. -/
theorem joinPred_eq (wired : g.Wired) (found : g.blocks[pred]? = some front) (inside : b < g.blocks.size)
    (onto : g.Live b ∨ front.ins = []) :
    g.joinPred b pred = .ok (g.joined b pred front) ∧ (g.joined b pred front).Wired := by
  have predInside : pred < g.blocks.size := found.lt_size
  have gathered := gathered_wired wired b pred front
  obtain ⟨block, atPred, sameIns⟩ := gathered_front found b
  have inside' : b < (g.gathered b pred front).blocks.size := by simpa [Graph.gathered] using inside
  have moved := gathered.movedIns atPred inside' (by rwa [gathered_live, sameIns])
  rw [sameIns] at moved
  refine ⟨?_, moved.withoutBlock pred⟩
  simp only [joinPred, block_eq_ok.mpr found, ok_bind, modifyBlock_eq predInside]
  rw [modifyBlock_eq (by simpa using inside), ok_bind]
  change ((g.gathered b pred front).moveIns pred b >>= fun g => g.removeBlock pred) = _
  rw [moveIns_eq block atPred inside' (gathered.ins_lt atPred), ok_bind, sameIns,
    moved.removeBlock_eq (by simpa [Graph.gathered] using predInside)]
  rfl

@[simp] theorem joined_size (b pred : BlockId) (front : Block) :
    (g.joined b pred front).blocks.size = g.blocks.size := by
  simp [joined, gathered]

theorem joined_live (b pred : BlockId) (front : Block) (i : BlockId) :
    (g.joined b pred front).Live i ↔ g.Live i ∧ i ≠ pred := by
  rw [joined, withoutBlock_live, movedIns_live, gathered_live]

end Joined

end Unstack.Graph
