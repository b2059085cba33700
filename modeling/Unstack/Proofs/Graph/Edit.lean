import Unstack.Proofs.Outcome

namespace Unstack.Graph

variable {g : Graph} {b source : BlockId} {block whole : Block} {outs : List (EdgeId × Edge)}

theorem block_eq_ok : g.block b = .ok block ↔ g.blocks[b]? = some block := by
  unfold Graph.block
  cases g.blocks[b]? <;> simp

theorem edge_eq_ok {e : EdgeId} {edge : Edge} : g.edge e = .ok edge ↔ g.edges[e]? = some edge := by
  unfold Graph.edge
  cases g.edges[e]? <;> simp

theorem modifyBlock_eq (inside : b < g.blocks.size) (change : Block → Block) :
    g.modifyBlock b change = .ok { g with blocks := g.blocks.modify b change } := if_pos inside

theorem modifyEdge_eq {e : EdgeId} (inside : e < g.edges.size) (change : Edge → Edge) :
    g.modifyEdge e change = .ok { g with edges := g.edges.modify e change } := if_pos inside

theorem mem_live : (b, block) ∈ g.live ↔ g.blocks[b]? = some block ∧ block.removed = false := by
  simp only [live, List.mem_filterMap, Prod.exists, List.mem_zipIdx_iff_getElem?, Array.getElem?_toList]
  constructor
  · rintro ⟨found, i, atIndex, chosen⟩
    by_cases gone : found.removed
    · simp [gone] at chosen
    · simp only [gone, Bool.false_eq_true, if_false, Option.some.injEq, Prod.mk.injEq] at chosen
      obtain ⟨rfl, rfl⟩ := chosen
      exact ⟨atIndex, by simpa using gone⟩
  · rintro ⟨atIndex, kept⟩
    exact ⟨block, b, atIndex, by simp [kept]⟩

def withEdge (g : Graph) (source target : BlockId) (kind : EdgeKind) : Graph :=
  { g with
    edges := g.edges.push { source, target, kind, back := false, removed := false }
    blocks := (g.blocks.modify source fun block => { block with outs := block.outs ++ [g.edges.size] }).modify
      target fun block => { block with ins := block.ins ++ [g.edges.size] } }

theorem addEdge_eq {target : BlockId} (kind : EdgeKind)
    (sourceInside : source < g.blocks.size) (targetInside : target < g.blocks.size) :
    g.addEdge source target kind = .ok (g.edges.size, g.withEdge source target kind) := by
  simp [addEdge, withEdge, modifyBlock, bind, Except.bind, pure, Except.pure, sourceInside, targetInside]

theorem lt_of_addEdge {target : BlockId} {kind : EdgeKind} {added : EdgeId × Graph}
    (run : g.addEdge source target kind = .ok added) : source < g.blocks.size ∧ target < g.blocks.size := by
  obtain ⟨mid, first, run⟩ := bind_eq_ok.mp run
  obtain ⟨last, second, _⟩ := bind_eq_ok.mp run
  unfold modifyBlock at first second
  split at first <;> cases first
  split at second <;> cases second
  simp only [Array.size_modify] at *
  exact ⟨‹_›, ‹_›⟩

theorem withEdge_block (g : Graph) (source target : BlockId) (kind : EdgeKind) (b : BlockId) :
    (g.withEdge source target kind).blocks[b]? = g.blocks[b]?.map fun block =>
      { block with
        outs := if source = b then block.outs ++ [g.edges.size] else block.outs
        ins := if target = b then block.ins ++ [g.edges.size] else block.ins } := by
  simp only [withEdge, Array.getElem?_modify]
  by_cases atSource : source = b <;> by_cases atTarget : target = b <;>
    cases g.blocks[b]? <;> simp [atSource, atTarget]

@[simp] theorem withEdge_size (g : Graph) (source target : BlockId) (kind : EdgeKind) :
    (g.withEdge source target kind).blocks.size = g.blocks.size := by
  simp [withEdge]

theorem withEdge_edge (g : Graph) (source target : BlockId) (kind : EdgeKind) (e : EdgeId) :
    (g.withEdge source target kind).edges[e]? =
      if e = g.edges.size then some { source, target, kind, back := false, removed := false }
      else g.edges[e]? := by
  simp [withEdge, Array.getElem?_push]

/-- The graph in which everything that entered `source` enters `dest`. -/
def movedIns (g : Graph) (source dest : BlockId) (entering : List EdgeId) : Graph :=
  { g with
    blocks := (g.blocks.modify source fun block => { block with ins := [] }).modify dest
      fun block => { block with ins := block.ins ++ entering }
    edges := g.edges.mapIdx fun e edge => if e ∈ entering then { edge with target := dest } else edge
    start := if g.start = source then dest else g.start }

theorem turnEdges_eq (dest : BlockId) (entering : List EdgeId) (g : Graph) (destInside : dest < g.blocks.size)
    (edgesInside : ∀ e ∈ entering, e < g.edges.size) :
    entering.foldlM (turnEdge · dest) g = .ok { g with
      blocks := g.blocks.modify dest fun block => { block with ins := block.ins ++ entering }
      edges := g.edges.mapIdx fun e edge => if e ∈ entering then { edge with target := dest } else edge } := by
  induction entering generalizing g with
  | nil =>
    have sameBlocks : g.blocks.modify dest (fun block => { block with ins := block.ins ++ [] }) = g.blocks := by
      apply Array.ext_getElem?
      simp [Array.getElem?_modify]
    have sameEdges : (g.edges.mapIdx fun e edge =>
        if e ∈ ([] : List EdgeId) then { edge with target := dest } else edge) = g.edges := by
      apply Array.ext_getElem?
      simp
    rw [sameBlocks, sameEdges]
    rfl
  | cons e rest ih =>
    have inside := edgesInside e (.head _)
    simp only [List.foldlM_cons, turnEdge, modifyEdge_eq inside, modifyBlock, if_pos destInside, bind, Except.bind]
    rw [ih _ (by simpa using destInside) fun e' later => (by simpa using edgesInside e' (.tail _ later))]
    congr 2
    · apply Array.ext_getElem?
      intro i
      simp only [Array.getElem?_modify]
      by_cases atDest : dest = i <;> cases g.blocks[i]? <;> simp [atDest]
    · apply Array.ext_getElem?
      intro i
      simp only [Array.getElem?_mapIdx, Array.getElem?_modify]
      by_cases atEdge : e = i <;> cases g.edges[i]? <;> simp [atEdge, eq_comm]

/-- The edges into a block are turned to another one. -/
theorem moveIns_eq {dest : BlockId} (block : Block)
    (found : g.blocks[source]? = some block) (destInside : dest < g.blocks.size)
    (edgesInside : ∀ e ∈ block.ins, e < g.edges.size) :
    g.moveIns source dest = .ok (g.movedIns source dest block.ins) := by
  have inside : source < g.blocks.size := found.lt_size
  simp only [moveIns, block_eq_ok.mpr found, modifyBlock_eq inside, ok_bind]
  rw [turnEdges_eq dest block.ins _ (by simpa using destInside) (by exact edgesInside), ok_bind]
  simp only [movedIns, pure, Except.pure]
  split <;> rfl

theorem outs_eq_ok (found : g.blocks[b]? = some block) :
    g.outs b = .ok outs ↔ outs.map Prod.fst = block.outs ∧ ∀ out ∈ outs, g.edges[out.1]? = some out.2 := by
  simp only [Graph.outs, block_eq_ok.mpr found, ok_bind, mapM_beside, edge_eq_ok]

theorem cleanupOuts_eq_self (leaving : g.outs b = .ok outs) (fresh : staleOuts false false false outs.reverse = []) :
    g.cleanupOuts b = .ok g := by
  simp only [cleanupOuts, leaving, ok_bind, fresh]
  rfl

/-- The first edge that leaves a block is not cleaned up again. -/
theorem setSucc_eq {dest : BlockId} (block : Block) (found : g.blocks[b]? = some block)
    (free : block.outs = []) (destInside : dest < g.blocks.size) :
    g.setSucc b dest = .ok (g.edges.size, g.withEdge b dest .sequence) := by
  have inside : b < g.blocks.size := found.lt_size
  have leaving : (g.withEdge b dest .sequence).outs b =
      .ok [(g.edges.size, ⟨b, dest, .sequence, false, false⟩)] := by
    have found' := withEdge_block g b dest .sequence b
    rw [found] at found'
    exact (outs_eq_ok found').mpr (by simp [free, withEdge_edge])
  simp only [setSucc, addEdge_eq .sequence inside destInside, ok_bind]
  rw [cleanupOuts_eq_self leaving rfl]
  rfl

/-- Both edges of a branch, in the order in which they are added. -/
def withConds (g : Graph) (b whenTrue whenFalse : BlockId) (falseFirst : Bool) : Graph :=
  if falseFirst then (g.withEdge b whenFalse .whenFalse).withEdge b whenTrue .whenTrue
  else (g.withEdge b whenTrue .whenTrue).withEdge b whenFalse .whenFalse

theorem addTwo_eq {first second : BlockId} (kind kind' : EdgeKind)
    (found : g.blocks[b]? = some block) (free : block.outs = [])
    (firstInside : first < g.blocks.size) (secondInside : second < g.blocks.size) :
    g.addEdge b first kind = .ok (g.edges.size, g.withEdge b first kind) ∧
      (g.withEdge b first kind).addEdge b second kind' =
        .ok (g.edges.size + 1, (g.withEdge b first kind).withEdge b second kind') ∧
      ((g.withEdge b first kind).withEdge b second kind').outs b =
        .ok [(g.edges.size, ⟨b, first, kind, false, false⟩), (g.edges.size + 1, ⟨b, second, kind', false, false⟩)] := by
  have inside : b < g.blocks.size := found.lt_size
  have size : (g.withEdge b first kind).edges.size = g.edges.size + 1 := by simp [withEdge]
  refine ⟨addEdge_eq kind inside firstInside, ?_, ?_⟩
  · rw [addEdge_eq kind' (by simpa using inside) (by simpa using secondInside), size]
  · have found' := withEdge_block (g.withEdge b first kind) b second kind' b
    rw [withEdge_block g, found] at found'
    exact (outs_eq_ok found').mpr (by simp [free, withEdge_edge, size])

theorem setConds_eq {whenTrue whenFalse : BlockId} {yes no : Block}
    (found : g.blocks[b]? = some block) (free : block.outs = [])
    (atTrue : g.blocks[whenTrue]? = some yes) (atFalse : g.blocks[whenFalse]? = some no) :
    g.setConds b whenTrue whenFalse = .ok (g.withConds b whenTrue whenFalse (no.pc ≤ yes.pc)) := by
  have trueInside : whenTrue < g.blocks.size := atTrue.lt_size
  have falseInside : whenFalse < g.blocks.size := atFalse.lt_size
  simp only [setConds, block_eq_ok.mpr atTrue, block_eq_ok.mpr atFalse, ok_bind]
  by_cases falseFirst : no.pc ≤ yes.pc
  · obtain ⟨one, two, leaving⟩ := addTwo_eq .whenFalse .whenTrue found free falseInside trueInside
    simp only [falseFirst, if_true, one, two, ok_bind, decide_true, withConds]
    exact cleanupOuts_eq_self leaving rfl
  · obtain ⟨one, two, leaving⟩ := addTwo_eq .whenTrue .whenFalse found free trueInside falseInside
    simp only [falseFirst, if_false, one, two, ok_bind, decide_false, withConds]
    exact cleanupOuts_eq_self leaving rfl

/-- The operations of a block before `pc`, in a block that is entered in its place. -/
def frontPart (g : Graph) (whole : Block) (pc : Nat) : Block :=
  { pc := whole.pc
    line := g.lineAt whole.pc
    ops := whole.ops.takeWhile fun o => o.pc < pc
    stmts := []
    stack := []
    postorder := 0
    ins := whole.ins
    outs := [g.edges.size]
    unreconstructed := false
    removed := false }

/-- The operations of a block from `pc` on, which are entered from those before. -/
def rearPart (g : Graph) (whole : Block) (pc : Nat) : Block :=
  { whole with
    pc := pc
    line := g.lineAt pc
    ops := whole.ops.dropWhile fun o => o.pc < pc
    ins := [g.edges.size] }

/-- The graph in which a block is cut in two before `pc`. -/
def parted (g : Graph) (b : BlockId) (whole : Block) (pc : Nat) : Graph :=
  { g with
    blocks := (g.blocks.setIfInBounds b (g.rearPart whole pc)).push (g.frontPart whole pc)
    edges := (g.edges.mapIdx fun e edge => if e ∈ whole.ins then { edge with target := g.blocks.size } else edge).push
      { source := g.blocks.size, target := b, kind := .sequence, back := false, removed := false }
    start := if g.start = b then g.blocks.size else g.start }

theorem modify_push_of_eq {α : Type} {xs : Array α} {i : Nat} (last : i = xs.size) (x : α) (f : α → α) :
    (xs.push x).modify i f = xs.push (f x) := by
  subst last
  apply Array.ext_getElem?
  intro i
  simp only [Array.getElem?_modify, Array.getElem?_push]
  by_cases last : i = xs.size
  · simp [last]
  · simp [last, Ne.symm last]

theorem modify_push_of_lt {α : Type} {xs : Array α} {i : Nat} (inside : i < xs.size) (x : α) (f : α → α) :
    (xs.push x).modify i f = (xs.modify i f).push x := by
  apply Array.ext_getElem?
  intro j
  simp only [Array.getElem?_modify, Array.getElem?_push, Array.size_modify]
  by_cases last : j = xs.size
  · simp [last, Nat.ne_of_lt inside]
  · simp [last]

/-- The front becomes a new block, which takes over the edges in. -/
theorem splitPred_eq (pc : Nat) (found : g.blocks[b]? = some whole)
    (edgesInside : ∀ e ∈ whole.ins, e < g.edges.size) :
    g.splitPred b pc = .ok (g.blocks.size, g.parted b whole pc) := by
  have inside : b < g.blocks.size := found.lt_size
  have bound := Nat.lt_succ_of_lt inside
  simp only [splitPred, block_eq_ok.mpr found, ok_bind, newBlock]
  rw [modifyBlock_eq (by simp), ok_bind, modifyBlock_eq (by simpa using bound), ok_bind]
  simp only [modify_push_of_eq rfl, modify_push_of_lt inside]
  rw [moveIns_eq { whole with ops := whole.ops.dropWhile fun o => o.pc < pc }
    (by simp only [Array.getElem?_modify, Array.getElem?_push, Array.size_modify, found, Nat.ne_of_lt inside]; rfl)
    (by simp) (by exact edgesInside), ok_bind]
  simp only [movedIns]
  rw [modify_push_of_lt (by simpa using inside), modify_push_of_eq (by simp)]
  rw [setSucc_eq { g.frontPart whole pc with outs := [] }
    (by simp only [Array.getElem?_push, Array.size_modify, if_true]; rfl) rfl (by simpa using bound), ok_bind]
  rw [modifyBlock_eq (by simpa using bound), ok_bind]
  simp only [withEdge, Array.size_mapIdx]
  rw [modify_push_of_eq (by simp), modify_push_of_lt (by simpa using inside),
    modify_push_of_lt (by simpa using inside)]
  have rear : (((((g.blocks.modify b fun block =>
      { block with ops := whole.ops.dropWhile fun o => o.pc < pc }).modify b fun block =>
      { block with ins := [] }).modify b fun block =>
      { block with ins := block.ins ++ [g.edges.size] }).modify b fun block =>
      { block with pc := pc, line := g.lineAt pc })) = g.blocks.setIfInBounds b (g.rearPart whole pc) := by
    apply Array.ext_getElem?
    intro i
    simp only [Array.getElem?_modify, Array.getElem?_setIfInBounds]
    by_cases atOld : b = i
    · subst atOld
      simp only [found, if_true, inside, Option.map_some, rearPart, List.nil_append]
    · simp [atOld]
  simp only [parted]
  rw [← rear]
  rfl

theorem parted_block (pc : Nat) (found : g.blocks[b]? = some whole)
    (i : BlockId) :
    (g.parted b whole pc).blocks[i]? =
      if i = g.blocks.size then some (g.frontPart whole pc)
      else if i = b then some (g.rearPart whole pc) else g.blocks[i]? := by
  have inside : b < g.blocks.size := found.lt_size
  simp only [parted, Array.getElem?_push, Array.getElem?_setIfInBounds, Array.size_setIfInBounds, inside, if_true,
    eq_comm (a := b)]

theorem parted_front (pc : Nat) (found : g.blocks[b]? = some whole) :
    (g.parted b whole pc).blocks[g.blocks.size]? = some (g.frontPart whole pc) :=
  (parted_block pc found _).trans (if_pos rfl)

theorem parted_rear (pc : Nat) (found : g.blocks[b]? = some whole) :
    (g.parted b whole pc).blocks[b]? = some (g.rearPart whole pc) := by
  rw [parted_block pc found, if_neg (Nat.ne_of_lt found.lt_size), if_pos rfl]

theorem parted_other {i : BlockId} (pc : Nat) (found : g.blocks[b]? = some whole)
    (atIndex : g.blocks[i]? = some block) (notRear : i ≠ b) : (g.parted b whole pc).blocks[i]? = some block := by
  rw [parted_block pc found, if_neg (Nat.ne_of_lt atIndex.lt_size), if_neg notRear, atIndex]

/-- The blocks after a cut are the front, the rear, and those that were not cut. -/
theorem parted_cases {i : BlockId} {pc : Nat} (found : g.blocks[b]? = some whole)
    (atIndex : (g.parted b whole pc).blocks[i]? = some block) :
    (i = g.blocks.size ∧ block = g.frontPart whole pc) ∨ (i = b ∧ block = g.rearPart whole pc) ∨
      (i ≠ b ∧ g.blocks[i]? = some block) := by
  rw [parted_block pc found] at atIndex
  by_cases front : i = g.blocks.size
  · rw [if_pos front] at atIndex
    exact .inl ⟨front, (Option.some.inj atIndex).symm⟩
  · rw [if_neg front] at atIndex
    by_cases rear : i = b
    · rw [if_pos rear] at atIndex
      exact .inr (.inl ⟨rear, (Option.some.inj atIndex).symm⟩)
    · rw [if_neg rear] at atIndex
      exact .inr (.inr ⟨rear, atIndex⟩)

theorem parted_edge (g : Graph) (b : BlockId) (whole : Block) (pc : Nat) (e : EdgeId) :
    (g.parted b whole pc).edges[e]? =
      if e = g.edges.size then
        some { source := g.blocks.size, target := b, kind := .sequence, back := false, removed := false }
      else g.edges[e]?.map fun edge => if e ∈ whole.ins then { edge with target := g.blocks.size } else edge := by
  simp [parted, Array.getElem?_push]

end Unstack.Graph
