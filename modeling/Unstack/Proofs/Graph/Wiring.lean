import Unstack.Proofs.Graph.Edit

namespace Unstack.Graph

/-- The edges that leave a block, none if the name stands for nothing. -/
def outsOf (g : Graph) (b : BlockId) : List EdgeId := (g.blocks[b]?.map Block.outs).getD []

/-- The edges that enter a block, none if the name stands for nothing. -/
def insOf (g : Graph) (b : BlockId) : List EdgeId := (g.blocks[b]?.map Block.ins).getD []

section

variable {g g' : Graph} {b source target : BlockId} {block : Block} {e : EdgeId}

theorem outsOf_eq (found : g.blocks[b]? = some block) :
    g.outsOf b = block.outs := by simp [outsOf, found]

theorem insOf_eq (found : g.blocks[b]? = some block) :
    g.insOf b = block.ins := by simp [insOf, found]

def Live (g : Graph) (b : BlockId) : Prop := ∃ block, g.blocks[b]? = some block ∧ block.removed = false

theorem Live.lt (live : g.Live b) : b < g.blocks.size := by
  obtain ⟨_, found, _⟩ := live
  exact found.lt_size

/-- The edge is in use and goes from one block to the other. -/
def Joins (g : Graph) (e : EdgeId) (source target : BlockId) : Prop :=
  ∃ edge, g.edges[e]? = some edge ∧ edge.removed = false ∧ edge.source = source ∧ edge.target = target

theorem Joins.lt (joins : g.Joins e source target) :
    e < g.edges.size := by
  obtain ⟨_, found, _⟩ := joins
  exact found.lt_size

/-- An edge has one source and one target. -/
theorem Joins.unique {a b c d : BlockId} (first : g.Joins e a b) (second : g.Joins e c d) :
    a = c ∧ b = d := by
  obtain ⟨edge, found, _, atSource, atTarget⟩ := first
  obtain ⟨edge', found', _, atSource', atTarget'⟩ := second
  cases found.some_unique found'
  exact ⟨atSource.symm.trans atSource', atTarget.symm.trans atTarget'⟩

/-- Blocks and edges agree: an edge in use stands once among those that leave its source and once among
those that enter its target, it stands nowhere else, and both of its blocks are in use. An edge that was
removed stands nowhere. -/
structure Wired (g : Graph) : Prop where
  outs_nodup (b : BlockId) : (g.outsOf b).Nodup
  ins_nodup (b : BlockId) : (g.insOf b).Nodup
  mem_outs (b : BlockId) (e : EdgeId) : e ∈ g.outsOf b ↔ ∃ target, g.Joins e b target
  mem_ins (b : BlockId) (e : EdgeId) : e ∈ g.insOf b ↔ ∃ source, g.Joins e source b
  ends_live (e : EdgeId) (source target : BlockId) : g.Joins e source target → g.Live source ∧ g.Live target

theorem Wired.ins_lt (wired : g.Wired) (found : g.blocks[b]? = some block) :
    ∀ e ∈ block.ins, e < g.edges.size := by
  intro e member
  rw [← insOf_eq found] at member
  obtain ⟨_, joins⟩ := (wired.mem_ins b e).mp member
  exact joins.lt

theorem Wired.outs_lt (wired : g.Wired) (found : g.blocks[b]? = some block) :
    ∀ e ∈ block.outs, e < g.edges.size := by
  intro e member
  rw [← outsOf_eq found] at member
  obtain ⟨_, joins⟩ := (wired.mem_outs b e).mp member
  exact joins.lt

theorem Wired.outs_total (wired : g.Wired) (found : g.blocks[b]? = some block) :
    ∃ outs, g.outs b = .ok outs := by
  simp only [Graph.outs, block_eq_ok.mpr found, ok_bind]
  refine mapM_total fun e member => ?_
  rw [edge_eq_ok.mpr (Array.getElem?_eq_getElem (wired.outs_lt found e member))]
  exact ⟨_, rfl⟩

/-- The edges that leave a block can be read, and they do leave it. -/
theorem Wired.leaving (wired : g.Wired) (inside : b < g.blocks.size) :
    ∃ outs, g.outs b = .ok outs ∧ ∀ out ∈ outs, g.edges[out.1]? = some out.2 ∧ g.Joins out.1 b out.2.target := by
  have found := Array.getElem?_eq_getElem inside
  obtain ⟨outs, run⟩ := wired.outs_total found
  have listed := (outs_eq_ok found).mp run
  refine ⟨outs, run, fun out member => ⟨listed.2 out member, ?_⟩⟩
  have named : out.1 ∈ g.outsOf b := by
    rw [outsOf_eq found, ← listed.1]
    exact List.mem_map_of_mem member
  obtain ⟨_, edge, atEdge, used, source, _⟩ := (wired.mem_outs b out.1).mp named
  cases atEdge.some_unique (listed.2 out member)
  exact ⟨out.2, atEdge, used, source, rfl⟩

theorem Wired.mem_outs_iff (wired : g.Wired)
    (found : g.blocks[b]? = some block) {outs : List (EdgeId × Edge)} (leaving : g.outs b = .ok outs)
    {edge : Edge} : (e, edge) ∈ outs ↔ g.edges[e]? = some edge ∧ edge.removed = false ∧ edge.source = b := by
  obtain ⟨listed, edges⟩ := (outs_eq_ok found).mp leaving
  constructor
  · intro member
    obtain ⟨_, leaving', joins⟩ := wired.leaving found.lt_size
    cases leaving.ok_unique leaving'
    obtain ⟨atEdge, _, atEdge', used, source, _⟩ := joins _ member
    cases atEdge.some_unique atEdge'
    exact ⟨atEdge, used, source⟩
  · rintro ⟨atEdge, used, source⟩
    have out : e ∈ g.outsOf b := (wired.mem_outs b e).mpr ⟨_, edge, atEdge, used, source, rfl⟩
    rw [outsOf_eq found, ← listed] at out
    obtain ⟨⟨_, edge'⟩, member, rfl⟩ := List.mem_map.mp out
    cases atEdge.some_unique (edges _ member)
    exact member

/-- The edges that enter a block can be read, and they do enter it. -/
theorem Wired.entering (wired : g.Wired) (inside : b < g.blocks.size) :
    ∃ ins, g.ins b = .ok ins ∧ ins.map Prod.fst = g.insOf b ∧
      ∀ entry ∈ ins, g.edges[entry.1]? = some entry.2 ∧ g.Joins entry.1 entry.2.source b := by
  have found := Array.getElem?_eq_getElem inside
  obtain ⟨ins, run⟩ : ∃ ins, g.ins b = .ok ins := by
    simp only [Graph.ins, block_eq_ok.mpr found, ok_bind]
    refine mapM_total fun e member => ?_
    rw [edge_eq_ok.mpr (Array.getElem?_eq_getElem (wired.ins_lt found e member))]
    exact ⟨_, rfl⟩
  have listed : ins.map Prod.fst = g.blocks[b].ins ∧ ∀ entry ∈ ins, g.edges[entry.1]? = some entry.2 := by
    simpa only [Graph.ins, block_eq_ok.mpr found, ok_bind, mapM_beside, edge_eq_ok] using run
  refine ⟨ins, run, by rw [listed.1, insOf_eq found], fun entry member => ⟨listed.2 entry member, ?_⟩⟩
  have named : entry.1 ∈ g.insOf b := by
    rw [insOf_eq found, ← listed.1]
    exact List.mem_map_of_mem member
  obtain ⟨_, edge, atEdge, used, _, target⟩ := (wired.mem_ins b entry.1).mp named
  cases atEdge.some_unique (listed.2 entry member)
  exact ⟨entry.2, atEdge, used, rfl, target⟩

theorem Wired.mem_ins_iff (wired : g.Wired) {edge : Edge}
    (found : g.blocks[b]? = some block) (atEdge : g.edges[e]? = some edge) (used : edge.removed = false) :
    e ∈ block.ins ↔ edge.target = b := by
  rw [← insOf_eq found, wired.mem_ins]
  constructor
  · rintro ⟨_, edge', atEdge', _, _, atTarget⟩
    cases atEdge.some_unique atEdge'
    exact atTarget
  · exact fun atTarget => ⟨edge.source, edge, atEdge, used, rfl, atTarget⟩

/-- Wiring is a matter of the lists of edges, the ends of edges, and which blocks are in use. -/
theorem Wired.congr (wired : g.Wired) (outs : ∀ b, g'.outsOf b = g.outsOf b)
    (ins : ∀ b, g'.insOf b = g.insOf b) (joins : ∀ e source target, g'.Joins e source target ↔ g.Joins e source target)
    (live : ∀ b, g.Live b → g'.Live b) : g'.Wired where
  outs_nodup b := by rw [outs]; exact wired.outs_nodup b
  ins_nodup b := by rw [ins]; exact wired.ins_nodup b
  mem_outs b e := by simp only [outs, joins]; exact wired.mem_outs b e
  mem_ins b e := by simp only [ins, joins]; exact wired.mem_ins b e
  ends_live e source target used := by
    have ends := wired.ends_live e source target ((joins e source target).mp used)
    exact ⟨live _ ends.1, live _ ends.2⟩

/-- Two graphs whose edges differ at most in kind and direction of search. -/
def SameEnds (g g' : Graph) : Prop :=
  ∀ e : EdgeId, g'.edges[e]?.map (fun edge : Edge => (edge.source, edge.target, edge.removed)) =
    g.edges[e]?.map fun edge : Edge => (edge.source, edge.target, edge.removed)

theorem SameEnds.joins (same : SameEnds g g')
    (joins : g.Joins e source target) : g'.Joins e source target := by
  obtain ⟨edge, found, kept, rfl, rfl⟩ := joins
  have agree := same e
  rw [found] at agree
  obtain ⟨edge', found', ends⟩ := Option.map_eq_some_iff.mp agree
  simp only [Prod.mk.injEq] at ends
  exact ⟨edge', found', ends.2.2.trans kept, ends.1, ends.2.1⟩

theorem SameEnds.joins_iff (same : SameEnds g g') (e : EdgeId) (source target : BlockId) :
    g'.Joins e source target ↔ g.Joins e source target :=
  ⟨SameEnds.joins fun e => (same e).symm, same.joins⟩

theorem empty_wired (info : MethodInfo) (ops : List Operation) : (Graph.empty info ops).Wired := by
  constructor <;> simp [outsOf, insOf, Joins, Graph.empty]

theorem newBlock_block (g : Graph) (pc : Nat) (i : BlockId) :
    (g.newBlock pc).2.blocks[i]? =
      if i = g.blocks.size then
        some { pc, line := g.lineAt pc, ops := [], stmts := [], stack := [], postorder := 0, ins := [], outs := [],
               unreconstructed := false, removed := false }
      else g.blocks[i]? := by
  simp [newBlock, Array.getElem?_push]

theorem Wired.newBlock (wired : g.Wired) (pc : Nat) : (g.newBlock pc).2.Wired := by
  refine wired.congr (fun b => ?_) (fun b => ?_) (fun e source target => Iff.rfl) (fun b live => ?_)
  · simp only [outsOf, newBlock_block]
    by_cases last : b = g.blocks.size <;> simp [last]
  · simp only [insOf, newBlock_block]
    by_cases last : b = g.blocks.size <;> simp [last]
  · obtain ⟨block, found, kept⟩ := live
    have inside := Nat.ne_of_lt found.lt_size
    exact ⟨block, by rw [newBlock_block, if_neg inside, found], kept⟩

/-- A change that touches neither the edges of a block nor its being in use. -/
def KeepsWiring (change : Block → Block) : Prop :=
  ∀ block, (change block).ins = block.ins ∧ (change block).outs = block.outs ∧
    (change block).removed = block.removed

theorem Wired.modify (wired : g.Wired) (b : BlockId) {change : Block → Block}
    (keeps : KeepsWiring change) : Wired { g with blocks := g.blocks.modify b change } := by
  refine wired.congr (fun i => ?_) (fun i => ?_) (fun e source target => Iff.rfl) (fun i live => ?_)
  · simp only [outsOf, Array.getElem?_modify]
    by_cases here : b = i <;> cases g.blocks[i]? <;> simp [here, keeps _]
  · simp only [insOf, Array.getElem?_modify]
    by_cases here : b = i <;> cases g.blocks[i]? <;> simp [here, keeps _]
  · obtain ⟨block, found, kept⟩ := live
    by_cases here : b = i
    · exact ⟨change block, by simp [Array.getElem?_modify, here, found], (keeps block).2.2.trans kept⟩
    · exact ⟨block, by simp [Array.getElem?_modify, here, found], kept⟩

theorem withEdge_outsOf (g : Graph) (inside : source < g.blocks.size) (target : BlockId)
    (kind : EdgeKind) (b : BlockId) :
    (g.withEdge source target kind).outsOf b =
      if source = b then g.outsOf b ++ [g.edges.size] else g.outsOf b := by
  simp only [outsOf, withEdge_block]
  by_cases here : source = b
  · subst here
    simp [Array.getElem?_eq_getElem inside]
  · cases g.blocks[b]? <;> simp [here]

theorem withEdge_insOf (g : Graph) (source : BlockId) (inside : target < g.blocks.size)
    (kind : EdgeKind) (b : BlockId) :
    (g.withEdge source target kind).insOf b =
      if target = b then g.insOf b ++ [g.edges.size] else g.insOf b := by
  simp only [insOf, withEdge_block]
  by_cases here : target = b
  · subst here
    simp [Array.getElem?_eq_getElem inside]
  · cases g.blocks[b]? <;> simp [here]

theorem withEdge_joins (g : Graph) (source target : BlockId) (kind : EdgeKind) (e : EdgeId) (a b : BlockId) :
    (g.withEdge source target kind).Joins e a b ↔
      (e = g.edges.size ∧ a = source ∧ b = target) ∨ g.Joins e a b := by
  simp only [Joins, withEdge_edge]
  by_cases last : e = g.edges.size
  · subst last
    have outside : ∀ edge, g.edges[g.edges.size]? ≠ some edge := by simp
    simp only [if_true, Option.some.injEq, outside, false_and, exists_false, or_false, true_and]
    constructor
    · rintro ⟨_, rfl, _, rfl, rfl⟩
      exact ⟨rfl, rfl⟩
    · rintro ⟨rfl, rfl⟩
      exact ⟨_, rfl, rfl, rfl, rfl⟩
  · simp [last]

theorem withEdge_live (source target : BlockId) (kind : EdgeKind) (live : g.Live b) :
    (g.withEdge source target kind).Live b := by
  obtain ⟨block, found, kept⟩ := live
  have found' := withEdge_block g source target kind b
  rw [found] at found'
  exact ⟨_, found', kept⟩

theorem Wired.fresh_outs (wired : g.Wired) (b : BlockId) : g.edges.size ∉ g.outsOf b := by
  intro member
  obtain ⟨_, joins⟩ := (wired.mem_outs b _).mp member
  exact Nat.lt_irrefl _ joins.lt

theorem Wired.fresh_ins (wired : g.Wired) (b : BlockId) : g.edges.size ∉ g.insOf b := by
  intro member
  obtain ⟨_, joins⟩ := (wired.mem_ins b _).mp member
  exact Nat.lt_irrefl _ joins.lt

theorem nodup_append_fresh {es : List EdgeId} (nodup : es.Nodup) (fresh : e ∉ es) :
    (es ++ [e]).Nodup := by
  rw [List.nodup_append]
  refine ⟨nodup, by simp, ?_⟩
  rintro a member b single rfl
  rw [List.mem_singleton.mp single] at member
  exact fresh member

/-- A new edge is listed at both of its ends. -/
theorem Wired.withEdge (wired : g.Wired) (kind : EdgeKind)
    (sourceLive : g.Live source) (targetLive : g.Live target) : (g.withEdge source target kind).Wired where
  outs_nodup b := by
    rw [withEdge_outsOf g sourceLive.lt]
    split
    · exact nodup_append_fresh (wired.outs_nodup b) (wired.fresh_outs b)
    · exact wired.outs_nodup b
  ins_nodup b := by
    rw [withEdge_insOf g source targetLive.lt]
    split
    · exact nodup_append_fresh (wired.ins_nodup b) (wired.fresh_ins b)
    · exact wired.ins_nodup b
  mem_outs b e := by
    simp only [withEdge_outsOf g sourceLive.lt, withEdge_joins, exists_or, ← wired.mem_outs]
    by_cases here : source = b
    · simp [here, or_comm]
    · simp [here, Ne.symm here]
  mem_ins b e := by
    simp only [withEdge_insOf g source targetLive.lt, withEdge_joins, exists_or, ← wired.mem_ins]
    by_cases here : target = b
    · simp [here, or_comm]
    · simp [here, Ne.symm here]
  ends_live e a b joins := by
    rcases (withEdge_joins g source target kind e a b).mp joins with ⟨_, rfl, rfl⟩ | old
    · exact ⟨withEdge_live _ _ kind sourceLive, withEdge_live _ _ kind targetLive⟩
    · have ends := wired.ends_live e a b old
      exact ⟨withEdge_live _ _ kind ends.1, withEdge_live _ _ kind ends.2⟩

end

section Parted

variable {g : Graph} {b : BlockId} {whole : Block}

theorem parted_outsOf (found : g.blocks[b]? = some whole) (pc : Nat) (i : BlockId) :
    (g.parted b whole pc).outsOf i = if i = g.blocks.size then [g.edges.size] else g.outsOf i := by
  simp only [outsOf, parted_block pc found]
  by_cases front : i = g.blocks.size
  · simp [front, frontPart]
  · by_cases rear : i = b
    · subst rear
      simp [front, found, rearPart]
    · simp [front, rear]

theorem parted_insOf (found : g.blocks[b]? = some whole) (pc : Nat) (i : BlockId) :
    (g.parted b whole pc).insOf i =
      if i = g.blocks.size then g.insOf b else if i = b then [g.edges.size] else g.insOf i := by
  simp only [insOf, parted_block pc found]
  by_cases front : i = g.blocks.size
  · simp [front, found, frontPart]
  · by_cases rear : i = b
    · subst rear
      simp [front, rearPart]
    · simp [front, rear]

theorem parted_live (found : g.blocks[b]? = some whole) (pc : Nat) {i : BlockId} (live : g.Live i) :
    (g.parted b whole pc).Live i := by
  obtain ⟨block, atIndex, kept⟩ := live
  have inside := Nat.ne_of_lt atIndex.lt_size
  simp only [Live, parted_block pc found, if_neg inside]
  by_cases rear : i = b
  · subst rear
    cases found.some_unique atIndex
    exact ⟨_, if_pos rfl, kept⟩
  · exact ⟨block, by rw [if_neg rear, atIndex], kept⟩

theorem parted_front_live (found : g.blocks[b]? = some whole) (pc : Nat) :
    (g.parted b whole pc).Live g.blocks.size :=
  ⟨g.frontPart whole pc, by rw [parted_block pc found, if_pos rfl], rfl⟩

/-- What entered the block enters its front, and the front leads to the rest. -/
theorem Wired.parted_joins (wired : g.Wired) (found : g.blocks[b]? = some whole) (pc : Nat) (e : EdgeId)
    (source target : BlockId) :
    (g.parted b whole pc).Joins e source target ↔
      (e = g.edges.size ∧ source = g.blocks.size ∧ target = b) ∨
        ∃ old, g.Joins e source old ∧ target = if old = b then g.blocks.size else old := by
  simp only [Joins, parted_edge]
  by_cases last : e = g.edges.size
  · subst last
    have outside : ∀ edge, g.edges[g.edges.size]? ≠ some edge := by simp
    simp only [if_true, Option.some.injEq, outside, false_and, exists_false, or_false, true_and]
    constructor
    · rintro ⟨_, rfl, _, rfl, rfl⟩
      exact ⟨rfl, rfl⟩
    · rintro ⟨rfl, rfl⟩
      exact ⟨_, rfl, rfl, rfl, rfl⟩
  · have entering {edge : Edge} (atEdge : g.edges[e]? = some edge) := wired.mem_ins_iff found atEdge
    simp only [last, if_false, false_and, false_or, Option.map_eq_some_iff]
    constructor
    · rintro ⟨_, ⟨edge, atEdge, rfl⟩, kept, rfl, rfl⟩
      by_cases moved : e ∈ whole.ins
      · rw [if_pos moved] at kept ⊢
        have atTarget := (entering atEdge kept).mp moved
        exact ⟨edge.target, ⟨edge, atEdge, kept, rfl, rfl⟩, by rw [if_pos atTarget]⟩
      · rw [if_neg moved] at kept ⊢
        have elsewhere := mt (entering atEdge kept).mpr moved
        exact ⟨edge.target, ⟨edge, atEdge, kept, rfl, rfl⟩, by rw [if_neg elsewhere]⟩
    · rintro ⟨_, ⟨edge, atEdge, kept, rfl, rfl⟩, rfl⟩
      refine ⟨_, ⟨edge, atEdge, rfl⟩, ?_⟩
      by_cases moved : e ∈ whole.ins
      · simp [moved, kept, (entering atEdge kept).mp moved]
      · simp [moved, kept, mt (entering atEdge kept).mpr moved]

/-- Parting a block leaves every edge listed at both ends. -/
theorem Wired.parted (wired : g.Wired) (found : g.blocks[b]? = some whole) (used : whole.removed = false) (pc : Nat) :
    (g.parted b whole pc).Wired where
  outs_nodup i := by
    rw [parted_outsOf found]
    split
    · simp
    · exact wired.outs_nodup i
  ins_nodup i := by
    rw [parted_insOf found]
    split
    · exact wired.ins_nodup b
    · split
      · simp
      · exact wired.ins_nodup i
  mem_outs i e := by
    simp only [parted_outsOf found, wired.parted_joins found]
    by_cases front : i = g.blocks.size
    · subst front
      simp only [if_true, List.mem_singleton, true_and]
      constructor
      · rintro rfl
        exact ⟨b, .inl ⟨rfl, rfl⟩⟩
      · rintro ⟨_, ⟨same, _⟩ | ⟨_, joins, _⟩⟩
        · exact same
        · exact absurd (wired.ends_live _ _ _ joins).1.lt (Nat.lt_irrefl _)
    · simp only [front, if_false, false_and, and_false, false_or]
      rw [wired.mem_outs]
      constructor
      · rintro ⟨old, joins⟩
        exact ⟨_, old, joins, rfl⟩
      · rintro ⟨_, old, joins, _⟩
        exact ⟨old, joins⟩
  mem_ins i e := by
    have apart : b ≠ g.blocks.size := Nat.ne_of_lt found.lt_size
    have inUse (source old) (joins : g.Joins e source old) : old ≠ g.blocks.size :=
      Nat.ne_of_lt (wired.ends_live _ _ _ joins).2.lt
    simp only [parted_insOf found, wired.parted_joins found]
    by_cases front : i = g.blocks.size
    · subst front
      simp only [if_true, apart.symm, and_false, false_or]
      rw [wired.mem_ins]
      constructor
      · rintro ⟨source, joins⟩
        exact ⟨source, b, joins, by rw [if_pos rfl]⟩
      · rintro ⟨source, old, joins, atFront⟩
        by_cases same : old = b
        · exact ⟨source, same ▸ joins⟩
        · rw [if_neg same] at atFront
          exact absurd atFront.symm (inUse source old joins)
    · by_cases rear : i = b
      · subst rear
        simp only [front, if_false, if_true, List.mem_singleton, and_true]
        constructor
        · rintro rfl
          exact ⟨_, .inl ⟨rfl, rfl⟩⟩
        · rintro ⟨_, ⟨same, _⟩ | ⟨old, _, atRear⟩⟩
          · exact same
          · by_cases same : old = i
            · rw [if_pos same] at atRear
              exact absurd atRear front
            · rw [if_neg same] at atRear
              exact absurd atRear.symm same
      · simp only [front, rear, if_false, and_false, false_or]
        rw [wired.mem_ins]
        constructor
        · rintro ⟨source, joins⟩
          exact ⟨source, i, joins, by rw [if_neg rear]⟩
        · rintro ⟨source, old, joins, atTarget⟩
          by_cases same : old = b
          · rw [if_pos same] at atTarget
            exact absurd atTarget front
          · rw [if_neg same] at atTarget
            exact ⟨source, atTarget ▸ joins⟩
  ends_live e source target joins := by
    rcases (wired.parted_joins found pc e source target).mp joins with ⟨_, rfl, rfl⟩ | ⟨old, before, rfl⟩
    · exact ⟨parted_front_live found pc, parted_live found pc ⟨whole, found, used⟩⟩
    · have ends := wired.ends_live e source old before
      refine ⟨parted_live found pc ends.1, ?_⟩
      split
      · exact parted_front_live found pc
      · exact parted_live found pc ends.2

end Parted

end Unstack.Graph
