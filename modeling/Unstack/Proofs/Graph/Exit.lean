import Unstack.Proofs.Graph.Wiring

namespace Unstack

/-- Nothing but operations: no statement, no value, no mark. -/
def Block.Raw (block : Block) : Prop := block.stmts = [] ∧ block.stack = [] ∧ block.unreconstructed = false

namespace Graph

variable {g g' : Graph} {b : BlockId}

/-- No block has been worked on. -/
def Raw (g : Graph) : Prop := ∀ (b : BlockId) (block : Block), g.blocks[b]? = some block → block.Raw

/-- What a block holds apart from its edges. -/
def bodyOf (g : Graph) (b : BlockId) : Option (Nat × List Operation × Bool) :=
  g.blocks[b]?.map fun block => (block.pc, block.ops, block.removed)

/-- The same method in the same blocks; edges and frames may differ. -/
structure SameCode (g g' : Graph) : Prop where
  info : g'.info = g.info
  ops : g'.ops = g.ops
  body (b : BlockId) : g'.bodyOf b = g.bodyOf b

namespace SameCode

variable {g g' g'' : Graph}

theorem refl (g : Graph) : SameCode g g := ⟨rfl, rfl, fun _ => rfl⟩

theorem trans (first : SameCode g g') (second : SameCode g' g'') : SameCode g g'' :=
  ⟨second.info.trans first.info, second.ops.trans first.ops, fun b => (second.body b).trans (first.body b)⟩

theorem symm (same : SameCode g g') : SameCode g' g :=
  ⟨same.info.symm, same.ops.symm, fun b => (same.body b).symm⟩

theorem block (same : SameCode g g') {block : Block} (found : g.blocks[b]? = some block) :
    ∃ block', g'.blocks[b]? = some block' ∧ block'.pc = block.pc ∧ block'.ops = block.ops ∧
      block'.removed = block.removed := by
  have body := same.body b
  simp only [bodyOf, found, Option.map_some] at body
  obtain ⟨block', found', agree⟩ := Option.map_eq_some_iff.mp body
  simp only [Prod.mk.injEq] at agree
  exact ⟨block', found', agree⟩

theorem live (same : SameCode g g') (live : g.Live b) : g'.Live b := by
  obtain ⟨block, found, used⟩ := live
  obtain ⟨block', found', _, _, kept⟩ := same.block found
  exact ⟨block', found', kept.trans used⟩

theorem withEdge (g : Graph) (source target : BlockId) (kind : EdgeKind) :
    SameCode g (g.withEdge source target kind) := by
  refine ⟨rfl, rfl, fun b => ?_⟩
  simp only [bodyOf, withEdge_block, Option.map_map]
  rfl

end SameCode

/-- The same method in the same blocks with the same frames; only edges may differ. -/
structure SameBodies (g g' : Graph) : Prop extends SameCode g g' where
  frames : g'.frames = g.frames
  raw : g.Raw → g'.Raw

namespace SameBodies

variable {g g' g'' : Graph}

theorem refl (g : Graph) : SameBodies g g := ⟨.refl g, rfl, id⟩

theorem trans (first : SameBodies g g') (second : SameBodies g' g'') : SameBodies g g'' :=
  ⟨first.toSameCode.trans second.toSameCode, second.frames.trans first.frames, second.raw ∘ first.raw⟩

theorem withEdge (g : Graph) (source target : BlockId) (kind : EdgeKind) :
    SameBodies g (g.withEdge source target kind) := by
  refine ⟨.withEdge .., rfl, fun raw i block found => ?_⟩
  rw [withEdge_block] at found
  obtain ⟨old, atOld, rfl⟩ := Option.map_eq_some_iff.mp found
  exact raw i old atOld

end SameBodies

/-- Where an edge leads: its kind and the index at which its target starts. -/
def exitOf (g : Graph) (e : EdgeId) : Option (EdgeKind × Nat) := do
  let edge ← g.edges[e]?
  let target ← g.blocks[edge.target]?
  return (edge.kind, target.pc)

def exits (g : Graph) (b : BlockId) : List (Option (EdgeKind × Nat)) := (g.outsOf b).map g.exitOf

/-- Where a block leads when no exception is thrown. -/
def flowExits (g : Graph) (b : BlockId) : List (EdgeKind × Nat) :=
  (g.outsOf b).filterMap fun e => (g.exitOf e).filter fun exit => !exit.1.isHandler

theorem exitOf_eq {e : EdgeId} (edge : Edge) (target : Block) (found : g.edges[e]? = some edge)
    (atTarget : g.blocks[edge.target]? = some target) : g.exitOf e = some (edge.kind, target.pc) := by
  simp [exitOf, found, atTarget]

theorem exits_eq_nil : g.exits b = [] ↔ g.outsOf b = [] := List.map_eq_nil_iff

/-- Exits depend on the outgoing edges, their kinds and targets, and where blocks start. -/
theorem exits_congr (b : BlockId) (outs : g'.outsOf b = g.outsOf b)
    (same : ∀ e ∈ g.outsOf b, g'.exitOf e = g.exitOf e) : g'.exits b = g.exits b := by
  unfold exits
  rw [outs]
  exact List.map_congr_left same

theorem exitOf_congr {e : EdgeId}
    (edges : g'.edges[e]?.map (fun edge : Edge => (edge.kind, edge.target)) =
      g.edges[e]?.map fun edge : Edge => (edge.kind, edge.target))
    (pcs : ∀ b : BlockId, g'.blocks[b]?.map Block.pc = g.blocks[b]?.map Block.pc) :
    g'.exitOf e = g.exitOf e := by
  simp only [exitOf, Option.bind_eq_bind]
  cases found : g.edges[e]? with
  | none =>
    rw [found] at edges
    have none' : g'.edges[e]? = none := by simpa using edges
    simp [none']
  | some edge =>
    rw [found] at edges
    obtain ⟨edge', found', agree⟩ := Option.map_eq_some_iff.mp edges
    simp only [Prod.mk.injEq] at agree
    have pc := pcs edge.target
    simp only [found', agree, Option.bind_some]
    cases old : g.blocks[edge.target]? with
    | none =>
      rw [old] at pc
      have none' : g'.blocks[edge.target]? = none := by simpa using pc
      simp [none']
    | some target =>
      rw [old] at pc
      obtain ⟨target', found'', agree'⟩ := Option.map_eq_some_iff.mp pc
      simp [found'', agree']

theorem flowExits_eq_filterMap (g : Graph) (b : BlockId) :
    g.flowExits b = (g.exits b).filterMap fun exit => exit.filter fun exit => !exit.1.isHandler := by
  simp only [flowExits, Graph.exits, List.filterMap_map]
  rfl

/-- Without handlers, the flow of a block is all its exits. -/
theorem flowExits_eq {places : List (EdgeKind × Nat)} (exits : g.exits b = places.map some)
    (noHandler : ∀ place ∈ places, place.1.isHandler = false) : g.flowExits b = places := by
  rw [flowExits_eq_filterMap, exits, List.filterMap_map]
  refine (List.filterMap_congr fun place member => ?_).trans List.filterMap_some
  simp [noHandler place member]

theorem flowExits_congr (b : BlockId) (outs : g'.outsOf b = g.outsOf b)
    (same : ∀ e ∈ g.outsOf b, (g'.exitOf e).filter (fun exit => !exit.1.isHandler) =
      (g.exitOf e).filter fun exit => !exit.1.isHandler) : g'.flowExits b = g.flowExits b := by
  unfold flowExits
  rw [outs]
  exact List.filterMap_congr same

theorem exits_newBlock (wired : g.Wired) (pc : Nat) (b : BlockId) : (g.newBlock pc).2.exits b = g.exits b := by
  refine exits_congr b ?_ fun e member => ?_
  · simp only [outsOf, newBlock_block]
    by_cases last : b = g.blocks.size <;> simp [last]
  · obtain ⟨target, edge, found, kept, _, atTarget⟩ := (wired.mem_outs b e).mp member
    obtain ⟨block, inUse, _⟩ := (wired.ends_live e b target ⟨edge, found, kept, ‹_›, atTarget⟩).2
    have inside := Nat.ne_of_lt inUse.lt_size
    rw [← atTarget] at inUse inside
    rw [exitOf_eq edge block found inUse]
    exact exitOf_eq edge block found (by rw [newBlock_block, if_neg inside, inUse])

/-- A change inside a block that keeps its edges and its start. -/
theorem exits_modify (g : Graph) (b : BlockId) {change : Block → Block} (keeps : KeepsWiring change)
    (start : ∀ block, (change block).pc = block.pc) (i : BlockId) :
    Graph.exits { g with blocks := g.blocks.modify b change } i = g.exits i := by
  refine exits_congr i ?_ fun e member => exitOf_congr rfl fun j => ?_
  · simp only [outsOf, Array.getElem?_modify]
    by_cases here : b = i <;> cases g.blocks[i]? <;> simp [here, keeps _]
  · simp only [Array.getElem?_modify]
    by_cases here : b = j <;> cases g.blocks[j]? <;> simp [here, start]

theorem exits_withEdge (wired : g.Wired) {source target : BlockId} (kind : EdgeKind)
    (inside : source < g.blocks.size) {block : Block} (atTarget : g.blocks[target]? = some block) (b : BlockId) :
    (g.withEdge source target kind).exits b =
      if source = b then g.exits b ++ [some (kind, block.pc)] else g.exits b := by
  have pcs (i : BlockId) : (g.withEdge source target kind).blocks[i]?.map Block.pc = g.blocks[i]?.map Block.pc := by
    rw [withEdge_block]
    cases g.blocks[i]? <;> rfl
  have old (e : EdgeId) (member : e ∈ g.outsOf b) : (g.withEdge source target kind).exitOf e = g.exitOf e := by
    have fresh : e ≠ g.edges.size := fun last => wired.fresh_outs b (last ▸ member)
    exact exitOf_congr (by rw [withEdge_edge, if_neg fresh]) pcs
  have new : (g.withEdge source target kind).exitOf g.edges.size = some (kind, block.pc) := by
    have atTarget' := pcs target
    rw [atTarget] at atTarget'
    obtain ⟨block', found', agree⟩ := Option.map_eq_some_iff.mp atTarget'
    rw [exitOf_eq _ block' (by rw [withEdge_edge, if_pos rfl]) found', agree]
  unfold exits
  rw [withEdge_outsOf g inside]
  by_cases here : source = b
  · rw [if_pos here, if_pos here, List.map_append, List.map_congr_left old, List.map_singleton, new]
  · rw [if_neg here, if_neg here, List.map_congr_left old]

/-- The rear keeps the exits, and the front leads to it. -/
theorem exits_parted (wired : g.Wired) {whole : Block} (found : g.blocks[b]? = some whole)
    (pc : Nat) (i : BlockId) :
    (g.parted b whole pc).exits i = if i = g.blocks.size then [some (.sequence, pc)] else g.exits i := by
  by_cases front : i = g.blocks.size
  · subst front
    have apart : b ≠ g.blocks.size := Nat.ne_of_lt found.lt_size
    have new : (g.parted b whole pc).exitOf g.edges.size = some (.sequence, pc) := by
      rw [exitOf_eq _ (g.rearPart whole pc) (by rw [parted_edge, if_pos rfl])]
      · rfl
      · rw [parted_block pc found, if_neg apart, if_pos rfl]
    simp [exits, parted_outsOf found, new]
  · rw [if_neg front]
    refine exits_congr i (by rw [parted_outsOf found, if_neg front]) fun e member => ?_
    obtain ⟨target, edge, atEdge, kept, atSource, atTarget⟩ := (wired.mem_outs i e).mp member
    subst atTarget
    obtain ⟨block, inUse, _⟩ := (wired.ends_live e i edge.target ⟨edge, atEdge, kept, atSource, rfl⟩).2
    have fresh : e ≠ g.edges.size := fun last => wired.fresh_outs i (last ▸ member)
    have inside : edge.target ≠ g.blocks.size := Nat.ne_of_lt inUse.lt_size
    have entering := wired.mem_ins_iff found atEdge kept
    rw [exitOf_eq edge block atEdge inUse]
    by_cases moved : e ∈ whole.ins
    · have same : block = whole := by
        rw [entering.mp moved, found] at inUse
        exact (Option.some.inj inUse).symm
      rw [exitOf_eq { edge with target := g.blocks.size } (g.frontPart whole pc), same]
      · rfl
      · rw [parted_edge, if_neg fresh, atEdge, Option.map_some, if_pos moved]
      · exact (parted_block pc found _).trans (if_pos rfl)
    · rw [exitOf_eq edge block]
      · rw [parted_edge, if_neg fresh, atEdge, Option.map_some, if_neg moved]
      · rw [parted_block pc found, if_neg inside, if_neg (mt entering.mpr moved), inUse]

theorem flowExits_withHandler (wired : g.Wired) {source target : BlockId} (types : List (Option JavaType))
    (inside : source < g.blocks.size) {block : Block} (atTarget : g.blocks[target]? = some block) (b : BlockId) :
    (g.withEdge source target (.handler types)).flowExits b = g.flowExits b := by
  rw [flowExits_eq_filterMap, flowExits_eq_filterMap, exits_withEdge wired (.handler types) inside atTarget]
  split
  · simp [EdgeKind.isHandler]
  · rfl

theorem catching_isHandler (t : Option JavaType) (kind : EdgeKind) : (catching t kind).isHandler = kind.isHandler := by
  cases kind <;> rfl

end Graph

end Unstack
