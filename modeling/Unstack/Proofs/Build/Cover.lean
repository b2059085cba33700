import Unstack.Proofs.Build.Accept

namespace Unstack

variable {outs : List (EdgeId × Edge)}

namespace Graph

variable {g g' : Graph} {kind : EdgeKind} {e : EdgeId} {out : EdgeId × Edge}

/-- The kind of an exit to the handler at `h`. -/
def catchAt (h : Nat) (exit : EdgeKind × Nat) : Option EdgeKind :=
  if exit.1.isHandler && exit.2 == h then some exit.1 else none

/-- The kinds of the edges from a block to the handler that starts at `h`, in order. -/
def catches (g : Graph) (b : BlockId) (h : Nat) : List EdgeKind :=
  (g.outsOf b).filterMap fun e => (g.exitOf e).bind (catchAt h)

theorem catches_eq_filterMap (g : Graph) (b : BlockId) (h : Nat) :
    g.catches b h = (g.exits b).filterMap fun exit => exit.bind (catchAt h) := by
  simp only [catches, exits, List.filterMap_map]
  rfl

/-- What a block catches depends on its own edges only. -/
theorem catches_congr {b : BlockId} {h : Nat} (outs : g'.outsOf b = g.outsOf b)
    (same : ∀ e ∈ g.outsOf b, (g'.exitOf e).bind (catchAt h) = (g.exitOf e).bind (catchAt h)) :
    g'.catches b h = g.catches b h := by
  unfold catches
  rw [outs]
  exact List.filterMap_congr same

theorem Renumbered.catches (numbered : Renumbered g g') (b : BlockId) (h : Nat) : g'.catches b h = g.catches b h :=
  catches_congr (numbered.outsOf b) fun e _ => by rw [numbered.exitOf e]

/-- One more caught type: on the first edge to the handler, or on an edge of its own if there is none. -/
def alsoCatching (t : Option JavaType) : List EdgeKind → List EdgeKind
  | [] => [.handler [t]]
  | kind :: rest => catching t kind :: rest

/-- Types that come one after the other are on one edge, each once. -/
theorem foldl_alsoCatching (types : List (Option JavaType)) :
    types.foldl (fun kinds t => alsoCatching t kinds) [] = if types = [] then [] else [.handler types.eraseDups] := by
  induction types using List.reverseRecOn with
  | nil => rfl
  | append_singleton types t ih =>
    rw [List.foldl_append, ih, if_neg (List.append_ne_nil_of_right_ne_nil types (List.cons_ne_nil t []))]
    by_cases first : types = []
    · subst first
      rfl
    · have single : [t].eraseDups = [t] := rfl
      simp only [if_neg first, List.foldl_cons, List.foldl_nil, alsoCatching, catching, List.eraseDups_append,
        List.contains_eq_mem, List.mem_eraseDups, decide_eq_true_eq]
      by_cases seen : t ∈ types <;> simp [seen, single, List.removeAll]

/-- A list of edges in which the first that counts gets one more type. -/
theorem filterMap_alsoCatching {kindOf kindOf' : EdgeId → Option EdgeKind} {before after : List EdgeId}
    {t : Option JavaType} (once : (before ++ e :: after).Nodup) (none : ∀ e' ∈ before, kindOf e' = none)
    (here : kindOf e = some kind) (now : kindOf' e = some (catching t kind))
    (elsewhere : ∀ e', e' ≠ e → kindOf' e' = kindOf e') :
    (before ++ e :: after).filterMap kindOf' = alsoCatching t ((before ++ e :: after).filterMap kindOf) := by
  rw [List.nodup_append] at once
  obtain ⟨_, once, apart⟩ := once
  have early : before.filterMap kindOf' = before.filterMap kindOf :=
    List.filterMap_congr fun e' member => elsewhere e' (apart e' member e (.head _))
  have later : after.filterMap kindOf' = after.filterMap kindOf := by
    refine List.filterMap_congr fun e' member => elsewhere e' ?_
    rintro rfl
    exact (List.nodup_cons.mp once).1 member
  rw [List.filterMap_append, List.filterMap_append, early, List.filterMap_eq_nil_iff.mpr none,
    List.filterMap_cons_some now, List.filterMap_cons_some here, later]
  rfl

/-- The graph in which an edge to a handler catches one more type. -/
def catchingMore (g : Graph) (e : EdgeId) (t : Option JavaType) : Graph :=
  { g with edges := g.edges.modify e fun edge => { edge with kind := catching t edge.kind } }

theorem catchingMore_exitOf {pc : Nat} (exit : g.exitOf e = some (kind, pc)) (t : Option JavaType) (e' : EdgeId) :
    (g.catchingMore e t).exitOf e' = if e' = e then some (catching t kind, pc) else g.exitOf e' := by
  by_cases here : e' = e
  · subst here
    obtain ⟨edge, found, exit⟩ := Option.bind_eq_some_iff.mp exit
    obtain ⟨target, atTarget, exit⟩ := Option.bind_eq_some_iff.mp exit
    cases exit
    rw [if_pos rfl]
    refine exitOf_eq { edge with kind := catching t edge.kind } target ?_ atTarget
    simp only [catchingMore, Array.getElem?_modify, if_true, found, Option.map_some]
  · rw [if_neg here]
    simp only [exitOf, catchingMore, Array.getElem?_modify, if_neg (Ne.symm here)]

theorem catchAt_handler (isHandler : kind.isHandler = true) (pc h : Nat) :
    catchAt h (kind, pc) = if pc = h then some kind else none := by
  simp [catchAt, isHandler]

theorem Wired.exitOf_out (wired : g.Wired) {b : BlockId} {block : Block} (found : g.blocks[b]? = some block)
    (leaving : g.outs b = .ok outs) (member : out ∈ outs) :
    ∃ other, g.blocks[out.2.target]? = some other ∧ g.exitOf out.1 = some (out.2.kind, other.pc) := by
  obtain ⟨names, resolved⟩ := (outs_eq_ok found).mp leaving
  have atEdge := resolved out member
  have leaves : out.1 ∈ g.outsOf b := by
    rw [outsOf_eq found, ← names]
    exact List.mem_map_of_mem member
  obtain ⟨_, edge, atEdge', used, source, rfl⟩ := (wired.mem_outs b out.1).mp leaves
  cases atEdge.some_unique atEdge'
  obtain ⟨other, atOther, _⟩ := (wired.ends_live out.1 b out.2.target ⟨_, atEdge, used, source, rfl⟩).2
  exact ⟨other, atOther, exitOf_eq _ _ atEdge atOther⟩

section AddHandler

variable {b handler : BlockId} {block target : Block} {outs : List (EdgeId × Edge)}
  (wired : g.Wired) (found : g.blocks[b]? = some block) (leaving : g.outs b = .ok outs)
  (atHandler : g.blocks[handler]? = some target)
  (only : ∀ (c : BlockId) (other : Block), g.blocks[c]? = some other → other.pc = target.pc → c = handler)

include wired found leaving atHandler only

/-- An edge leads to where the handler starts if it leads to the handler, the only block that starts there. -/
theorem Wired.catchAt_out (member : out ∈ outs) :
    ∃ pc, g.exitOf out.1 = some (out.2.kind, pc) ∧ (pc = target.pc ↔ out.2.target = handler) := by
  obtain ⟨other, atOther, exit⟩ := wired.exitOf_out found leaving member
  refine ⟨other.pc, exit, only _ _ atOther, fun same => ?_⟩
  rw [same] at atOther
  rw [atOther.some_unique atHandler]

/-- An edge that a search for the handler passes over does not lead there. -/
theorem Wired.catchAt_skipped (member : out ∈ outs)
    (skipped : (out.2.target == handler && out.2.kind.isHandler) = false) :
    (g.exitOf out.1).bind (catchAt target.pc) = none := by
  obtain ⟨pc, exit, atPc⟩ := wired.catchAt_out found leaving atHandler only member
  rw [exit]
  by_cases here : pc = target.pc
  · have other : out.2.kind.isHandler = false := by simpa [atPc.mp here] using skipped
    simp [catchAt, other]
  · simp [catchAt, here]

/-- One more type on an edge is one more type for its block and handler alone. -/
theorem Wired.catches_catchingMore {edge : Edge}
    (chosen : outs.find? (fun out => out.2.target == handler && out.2.kind.isHandler) = some (e, edge))
    (t : Option JavaType) (i : BlockId) (h : Nat) :
    (g.catchingMore e t).catches i h =
      if i = b ∧ h = target.pc then alsoCatching t (g.catches i h) else g.catches i h := by
  obtain ⟨test, before, after, whole, earlier⟩ := List.find?_eq_some_iff_append.mp chosen
  simp only [Bool.and_eq_true, beq_iff_eq] at test
  obtain ⟨toHandler, isHandler⟩ := test
  have member : (e, edge) ∈ outs := List.mem_of_find?_eq_some chosen
  obtain ⟨_, exit, atPc⟩ := wired.catchAt_out found leaving atHandler only member
  cases atPc.mpr toHandler
  have exits := catchingMore_exitOf exit t
  have names : g.outsOf b = before.map Prod.fst ++ e :: after.map Prod.fst := by
    rw [outsOf_eq found, ← ((outs_eq_ok found).mp leaving).1, whole, List.map_append, List.map_cons]
  have isHandler' : (catching t edge.kind).isHandler = true := (catching_isHandler t edge.kind).trans isHandler
  by_cases here : i = b ∧ h = target.pc
  · obtain ⟨rfl, rfl⟩ := here
    rw [if_pos ⟨rfl, rfl⟩, catches, catches]
    change (g.outsOf i).filterMap _ = _
    have once := wired.outs_nodup i
    rw [names] at once ⊢
    have counts : (g.exitOf e).bind (catchAt target.pc) = some edge.kind := by
      rw [exit, Option.bind_some, catchAt_handler isHandler, if_pos rfl]
    refine filterMap_alsoCatching once (fun e' inside => ?_) counts ?_ fun e' other => ?_
    · obtain ⟨out, first, rfl⟩ := List.mem_map.mp inside
      exact wired.catchAt_skipped found leaving atHandler only (whole ▸ List.mem_append_left _ first)
        (Bool.not_eq_true' _ ▸ earlier out first)
    · rw [exits, if_pos rfl, Option.bind_some, catchAt_handler isHandler', if_pos rfl]
    · rw [exits, if_neg other]
  · rw [if_neg here]
    refine catches_congr rfl fun e' inside => ?_
    rw [exits]
    split
    · -- the chosen edge leads from `b` to the handler, so it does not count on either side
      rename_i same
      subst same
      obtain ⟨_, joins⟩ := (wired.mem_outs i e').mp inside
      obtain ⟨_, joins'⟩ := (wired.mem_outs b e').mp (by rw [names]; simp)
      have other : target.pc ≠ h := fun same => here ⟨(joins.unique joins').1, same.symm⟩
      rw [exit, Option.bind_some, Option.bind_some, catchAt_handler isHandler, catchAt_handler isHandler', if_neg other,
        if_neg other]
    · rfl

/-- A handler adds one type to what the block hands to it. -/
theorem Wired.catches_addHandler (live : block.removed = false) (used : target.removed = false) (t : Option JavaType) :
    ∃ r, g.addHandler b handler t = .ok r ∧ SameBodies g r.2 ∧ r.2.Wired ∧
      ∀ i h, r.2.catches i h = if i = b ∧ h = target.pc then alsoCatching t (g.catches i h) else g.catches i h := by
  obtain ⟨r, run, same, wired', _⟩ := wired.addHandler ⟨block, found, live⟩ ⟨target, atHandler, used⟩ t
  refine ⟨r, run, same, wired', fun i h => ?_⟩
  simp only [Graph.addHandler, leaving, ok_bind] at run
  split at run
  · rename_i e edge chosen
    have atEdge := ((outs_eq_ok found).mp leaving).2 _ (List.mem_of_find?_eq_some chosen)
    rw [modifyEdge_eq atEdge.lt_size] at run
    cases run
    exact wired.catches_catchingMore found leaving atHandler only chosen t i h
  · rename_i absent
    have inside := found.lt_size
    rw [addEdge_eq (.handler [t]) inside atHandler.lt_size] at run
    cases run
    -- the block had no edge to the handler yet
    have none : g.catches b target.pc = [] := by
      rw [catches, outsOf_eq found, ← ((outs_eq_ok found).mp leaving).1]
      refine List.filterMap_eq_nil_iff.mpr fun e inside => ?_
      obtain ⟨out, member, rfl⟩ := List.mem_map.mp inside
      exact wired.catchAt_skipped found leaving atHandler only member (by simpa using List.find?_eq_none.mp absent out member)
    simp only [catches_eq_filterMap, exits_withEdge wired (.handler [t]) inside atHandler] at none ⊢
    by_cases here : b = i
    · subst here
      simp only [if_true, true_and, List.filterMap_append, List.filterMap_cons, List.filterMap_nil, Option.bind_some,
        catchAt_handler (show (EdgeKind.handler [t]).isHandler = true from rfl)]
      by_cases there : h = target.pc
      · subst there
        simp [none, alsoCatching]
      · simp [there, Ne.symm there]
    · simp [here, Ne.symm here]

end AddHandler

end Graph

/-- The operation is in the range. -/
def ExceptionRange.covers (r : ExceptionRange) (pc : Nat) : Bool := r.startPc ≤ pc && pc < r.endPc

/-- All operations of the block are in the range. -/
def ExceptionRange.holds (r : ExceptionRange) (block : Block) : Bool := r.startPc ≤ block.pc && block.stop ≤ r.endPc

theorem ExceptionRange.holds_congr {block block' : Block} (pc : block'.pc = block.pc) (ops : block'.ops = block.ops)
    (r : ExceptionRange) : r.holds block' = r.holds block := by
  rw [holds, holds, Block.stop, Block.stop, pc, ops]

namespace Graph.Laid

variable {m : MethodInput} {g : Graph} {b : BlockId} {block : Block}

theorem eq_of_start (laid : g.Laid m) {c : BlockId} {other : Block} (found : g.blocks[b]? = some block)
    (found' : g.blocks[c]? = some other) (same : block.pc = other.pc) : b = c := by
  have positive := List.length_pos_iff.mpr (laid.segment b block found).1
  have positive' := List.length_pos_iff.mpr (laid.segment c other found').1
  exact laid.apart b c block other block.pc found found' (Nat.le_refl _) (by unfold Block.stop; omega) (by omega)
    (by unfold Block.stop; omega)

theorem last_pc (laid : g.Laid m) (found : g.blocks[b]? = some block) :
    ∃ o, block.ops.getLast? = some o ∧ o.pc + 1 = block.stop := by
  have positive := List.length_pos_iff.mpr (laid.segment b block found).1
  have atEnd := List.getElem?_eq_getElem (show block.ops.length - 1 < block.ops.length by omega)
  refine ⟨_, List.getLast?_eq_getElem?.trans atEnd, ?_⟩
  have pc := laid.op_pc found atEnd
  unfold Block.stop
  omega

/-- A block has the operations from its start to its stop and no other. -/
theorem mem_pcs (laid : g.Laid m) (found : g.blocks[b]? = some block) {p : Nat} :
    p ∈ block.ops.map Operation.pc ↔ block.pc ≤ p ∧ p < block.stop := by
  constructor
  · intro member
    obtain ⟨o, inBlock, rfl⟩ := List.mem_map.mp member
    obtain ⟨i, atIndex⟩ := List.mem_iff_getElem?.mp inBlock
    have inside := atIndex.lt_length
    have pc := laid.op_pc found atIndex
    unfold Block.stop
    omega
  · rintro ⟨lower, upper⟩
    unfold Block.stop at upper
    have atIndex := List.getElem?_eq_getElem (show p - block.pc < block.ops.length by omega)
    refine List.mem_map.mpr ⟨_, List.mem_of_getElem? atIndex, ?_⟩
    rw [laid.op_pc found atIndex]
    omega

end Graph.Laid

namespace Scan

variable {m : MethodInput} {blockOf : Array (Option BlockId)} {g g' : Graph} {r : ExceptionRange}

/-- By induction on the blocks that are still to be covered. -/
theorem coverBlocks_catches {handler : BlockId} {target : Block} {g₁ : Graph} {items : List (BlockId × Block)}
    (laid : g.Laid m) (atHandler : g.blocks[handler]? = some target) (same : Graph.SameBodies g g₁) (wired : g₁.Wired)
    (once : (items.map Prod.fst).Nodup) (inUse : ∀ item ∈ items, g.blocks[item.1]? = some item.2)
    (t : Option JavaType)
    (run : (items.foldlM (fun g item => do return (← g.addHandler item.1 handler t).2) g₁ : Building Graph).run =
      .ok (.ok g')) :
    Graph.SameBodies g g' ∧ g'.Wired ∧ ∀ b h, g'.catches b h =
      if b ∈ items.map Prod.fst ∧ h = target.pc then Graph.alsoCatching t (g₁.catches b h) else g₁.catches b h := by
  induction items generalizing g₁ with
  | nil =>
    cases run
    exact ⟨same, wired, fun b h => by simp⟩
  | cons item rest ih =>
    obtain ⟨fresh, once⟩ := List.nodup_cons.mp once
    obtain ⟨block, atBlock, _, _, kept⟩ := same.block (inUse item (.head _))
    obtain ⟨target', atTarget, pc, _, kept'⟩ := same.block atHandler
    obtain ⟨outs, leaving⟩ := wired.outs_total atBlock
    have laid₁ := laid.congr same.toSameCode
    obtain ⟨added, adding, same', wired', catches⟩ := wired.catches_addHandler atBlock leaving atTarget
      (fun c other found start => laid₁.eq_of_start found atTarget start) (laid₁.segment _ _ atBlock).2.2
      (laid₁.segment _ _ atTarget).2.2 t
    rw [List.foldlM_cons] at run
    obtain ⟨g₂, first, run⟩ := Building.bind_run_ok run
    obtain ⟨added', adding', first⟩ := Building.bind_run_ok first
    cases adding.ok_unique (Building.lift_run_ok adding')
    cases first
    obtain ⟨same'', wired'', later⟩ := ih (same.trans same') wired' once
      (fun other member => inUse other (.tail _ member)) run
    refine ⟨same'', wired'', fun b h => ?_⟩
    simp only [later, catches, pc, List.map_cons]
    by_cases here : b = item.1
    · subst here
      simp [fresh]
    · rw [if_neg (show ¬ (b = item.1 ∧ h = target.pc) from fun both => here both.1)]
      exact if_congr (and_congr_left' (List.mem_cons.trans (or_iff_right here)).symm) rfl rfl

/-- A range adds its type to the blocks that it holds, and leaves the others as they are. -/
theorem cover_catches (laid : g.Laid m) (wired : g.Wired) (placed : Placed blockOf g r.handlerPc)
    (run : (cover blockOf g r).run = .ok (.ok g')) :
    Graph.SameBodies g g' ∧ g'.Wired ∧ ∀ (b : BlockId) (block : Block) (h : Nat), g.blocks[b]? = some block →
      g'.catches b h = if r.holds block ∧ h = r.handlerPc then Graph.alsoCatching r.catchType (g.catches b h)
        else g.catches b h := by
  obtain ⟨handler, resolved, run⟩ := Building.bind_run_ok run
  obtain ⟨target, atHandler, atStart, _⟩ := placed handler ((resolve_yields _ _ _).of_run resolved)
  have once : (g.live.map Prod.fst).Nodup := List.pairwise_map.mpr g.live_pairwise
  change ExceptT.run (List.foldlM _ g (g.live.filter _)) = _ at run
  rw [List.filter_congr (q := fun item => r.holds item.2)] at run
  rotate_left
  · -- the first and the last operation of a block tell that it lies in the range
    intro item member
    obtain ⟨o, atEnd, last⟩ := laid.last_pc (laid.mem_live.mp member)
    simp only [atEnd, ExceptionRange.holds, ← last, Nat.succ_le_iff]
  obtain ⟨same, wired', catches⟩ := coverBlocks_catches laid atHandler (.refl g) wired
    (once.sublist (List.filter_sublist.map _))
    (fun item member => laid.mem_live.mp (List.mem_of_mem_filter member)) r.catchType run
  refine ⟨same, wired', fun b block h found => ?_⟩
  have inside : b ∈ (g.live.filter fun item => r.holds item.2).map Prod.fst ↔ r.holds block := by
    simp [laid.mem_live, found]
  simp only [catches, atStart, inside]

/-- By induction on the ranges: a block catches the types of those that hold it, in the order of the table. -/
theorem coverAll_catches {ranges : List ExceptionRange} (laid : g.Laid m) (wired : g.Wired)
    (placed : ∀ r ∈ ranges, Placed blockOf g r.handlerPc)
    (run : (ranges.foldlM (cover blockOf) g).run = .ok (.ok g')) :
    Graph.SameBodies g g' ∧ g'.Wired ∧ ∀ (b : BlockId) (block : Block) (h : Nat), g.blocks[b]? = some block →
      g'.catches b h = ((ranges.filter fun r => r.handlerPc == h && r.holds block).map ExceptionRange.catchType).foldl
        (fun kinds t => Graph.alsoCatching t kinds) (g.catches b h) := by
  induction ranges generalizing g with
  | nil =>
    cases run
    exact ⟨.refl _, wired, fun _ _ _ _ => rfl⟩
  | cons r rest ih =>
    rw [List.foldlM_cons] at run
    obtain ⟨g₁, first, run⟩ := Building.bind_run_ok run
    obtain ⟨same, wired₁, catches⟩ := cover_catches laid wired (placed r (.head _)) first
    have placed₁ (r' : ExceptionRange) (member : r' ∈ rest) : Placed blockOf g₁ r'.handlerPc := by
      intro dest owned
      obtain ⟨target, atDest, atStart, used⟩ := placed r' (.tail _ member) dest owned
      obtain ⟨target₁, atDest₁, pc, _, kept⟩ := same.block atDest
      exact ⟨target₁, atDest₁, pc.trans atStart, kept.trans used⟩
    obtain ⟨same', wired', later⟩ := ih (laid.congr same.toSameCode) wired₁ placed₁ run
    refine ⟨same.trans same', wired', fun b block h found => ?_⟩
    obtain ⟨block₁, found₁, pc, ops, _⟩ := same.block found
    rw [later b block₁ h found₁, catches b block h found]
    simp only [ExceptionRange.holds_congr pc ops]
    by_cases mine : h = r.handlerPc
    · subst mine
      by_cases inside : r.holds block <;> simp [inside]
    · simp [mine, Ne.symm mine]

end Scan

namespace Graph

variable {m : MethodInput} {g : Graph} {b : BlockId} {block : Block}

/-- No block goes on past a leader. -/
theorem Laid.stop_le (laid : g.Laid m) (found : g.blocks[b]? = some block) (pc : Nat)
    (leader : m.Leader pc) (before : block.pc < pc) : block.stop ≤ pc := by
  obtain ⟨c, other, found', rfl⟩ := (laid.starts pc).mpr ((m.announced_iff_leader pc).mpr leader)
  by_contra inside
  have same := laid.apart b c block other other.pc found found' (by omega) (by omega) (Nat.le_refl _)
    (laid.extent found').1
  subst same
  cases found.some_unique found'
  omega

/-- Ranges start and end where blocks do, so a range holds a block if it covers one of its operations. -/
theorem Laid.holds_eq_covers (laid : g.Laid m) {r : ExceptionRange} (member : r ∈ m.exceptions)
    (bound : r.endPc ≤ m.ops.length) (found : g.blocks[b]? = some block) {p : Nat}
    (lower : block.pc ≤ p) (upper : p < block.stop) : r.holds block = r.covers p := by
  have atStart := laid.stop_le found r.startPc (.inr (.inr (.inl ⟨r, member, .inl rfl⟩)))
  have atEnd (inside : r.endPc < m.ops.length) := laid.stop_le found r.endPc
    (.inr (.inr (.inl ⟨r, member, .inr (.inr ⟨rfl, inside⟩)⟩)))
  have extent := laid.extent found
  rw [Bool.eq_iff_iff]
  simp only [ExceptionRange.holds, ExceptionRange.covers, Bool.and_eq_true, decide_eq_true_eq]
  omega

theorem Laid.blockAt_eq_some_iff (laid : g.Laid m) (found : g.blocks[b]? = some block)
    {pc : Nat} : g.blockAt? pc = some b ↔ block.pc = pc := by
  refine ⟨fun first => ?_, fun start => start ▸ laid.blockAt found⟩
  obtain ⟨⟨c, other⟩, chosen, rfl⟩ := Option.map_eq_some_iff.mp first
  cases found.some_unique (laid.mem_live.mp (List.mem_of_find?_eq_some chosen))
  simpa using List.find?_some chosen

/-- The edges from a block to the handler that starts at `h`. -/
def handlerEdges (g : Graph) (outs : List (EdgeId × Edge)) (h : Nat) : List (EdgeId × Edge) :=
  outs.filter fun out => out.2.kind.isHandler && g.blockAt? h == some out.2.target

theorem Laid.catches_eq (laid : g.Laid m) (wired : g.Wired) (found : g.blocks[b]? = some block)
    (leaving : g.outs b = .ok outs) (h : Nat) : g.catches b h = (g.handlerEdges outs h).map fun out => out.2.kind := by
  rw [catches, outsOf_eq found, ← ((outs_eq_ok found).mp leaving).1, List.filterMap_map, handlerEdges,
    ← List.filterMap_eq_map, List.filterMap_filter]
  refine List.filterMap_congr fun out member => ?_
  obtain ⟨other, atOther, exit⟩ := wired.exitOf_out found leaving member
  simp [exit, catchAt, laid.blockAt_eq_some_iff atOther]

/-- A graph of a method that has all edges but those to handlers. -/
structure Uncovered (m : MethodInput) (blockOf : Array (Option BlockId)) (g : Graph) : Prop where
  laid : g.Laid m
  wired : g.Wired
  owned (p : Nat) (b : BlockId) : blockOf[p]? = some (some b) → g.Live b
  placed (r : ExceptionRange) : r ∈ m.exceptions → Scan.Placed blockOf g r.handlerPc
  free (b : BlockId) (h : Nat) : g.Live b → g.catches b h = []

/-- Links are no handlers, so nothing is caught before the table is read. -/
theorem Uncovered.of_scan {s : Scan} {linked : Graph} (wellFormed : m.WellFormed)
    (ready : Scan.Ready m.info m.numbered m.ops.length none s) (laid : s.graph.Laid m)
    (leader : ∀ pc, m.Leader pc → pc ∈ s.leaders)
    (linking : (s.links.foldlM (Scan.connect s.blockOf) s.graph).run = .ok (.ok linked)) :
    Uncovered m s.blockOf linked := by
  have targets (o : Operation) (member : o ∈ m.numbered) (t : Nat) (jumps : t ∈ o.instr.targets) : t ∈ s.leaders := by
    obtain ⟨pc, found⟩ := List.mem_iff_getElem?.mp member
    obtain ⟨o', found', rfl⟩ := MethodInput.numbered_eq_some.mp found
    exact leader t (.inr (.inl ⟨o', List.mem_of_getElem? found', jumps⟩))
  have connected := Scan.Ready.connectAll (m.numbered_length.symm ▸ ready) (.numbered m) targets
  obtain ⟨same, wired, exits⟩ := connected.of_run linking
  refine ⟨laid.congr same.toSameCode, wired, fun p b owned => ?_, fun r member dest owned => ?_, fun b h live => ?_⟩
  · obtain ⟨block, found, _⟩ := (ready.owner p b).mp owned
    exact same.live ⟨block, found, (laid.segment b block found).2.2⟩
  · have inside := (wellFormed.ranges r member).2.2
    obtain ⟨target, atDest, _⟩ := (ready.owner _ _).mp owned
    have atStart := ready.starts_at_leader inside (leader _ (.inr (.inr (.inl ⟨r, member, .inr (.inl rfl)⟩)))) owned
      atDest
    obtain ⟨target', atDest', pc, _, kept⟩ := same.block atDest
    exact ⟨target', atDest', pc.trans atStart, kept.trans (laid.segment dest target atDest).2.2⟩
  · -- the exits of an operation lead to no handler
    obtain ⟨block, found, _⟩ := live
    obtain ⟨old, found', _⟩ := same.symm.block found
    obtain ⟨o, atEnd⟩ := ready.lastOf found'
    rw [catches_eq_filterMap, exits b old o found' atEnd, List.filterMap_eq_nil_iff]
    intro exit member
    obtain ⟨exit, leads, rfl⟩ := List.mem_map.mp member
    simp [catchAt, (Operation.mem_exits leads).1]

/-- The last steps to the graph of a method: ranges are covered, and the blocks are numbered. -/
theorem covered_of_run (run : (Graph.ofMethod m).run = .ok (.ok g)) :
    ∃ (blockOf : Array (Option BlockId)) (linked covered : Graph) (start : BlockId), Uncovered m blockOf linked ∧
      (m.exceptions.foldlM (Scan.cover blockOf) linked).run = .ok (.ok covered) ∧ covered.Live start ∧
      Graph.Wired { covered with start } ∧ Graph.renumber { covered with start } = .ok g := by
  have wellFormed := wellFormed_of_run run
  obtain ⟨s, scanning, ready, leaders⟩ := Scan.scan_total m
  unfold Graph.ofMethod at run
  split at run
  · cases run
  obtain ⟨_, targetsFit, run⟩ := Building.bind_run_ok run
  obtain ⟨_, rangesFit, run⟩ := Building.bind_run_ok run
  obtain ⟨_, ran, run⟩ := Building.bind_run_ok run
  cases (Building.lift_run_ok ran).ok_unique scanning
  obtain ⟨linked, linking, run⟩ := Building.bind_run_ok run
  obtain ⟨covered, covering, run⟩ := Building.bind_run_ok run
  obtain ⟨start, resolved, run⟩ := Building.bind_run_ok run
  have laid := Laid.of_scan ready leaders fun p =>
    MethodInput.announced_lt wellFormed.nonempty (Except.ok.inj targetsFit) (Except.ok.inj rangesFit)
  have uncovered := Uncovered.of_scan wellFormed ready laid
    (fun pc leader => (leaders pc).mpr ((m.announced_iff_leader pc).mpr leader)) linking
  obtain ⟨same, wired, _⟩ := Scan.coverAll_catches uncovered.laid uncovered.wired uncovered.placed covering
  have live := same.live (uncovered.owned 0 start ((Scan.resolve_yields _ _ _).of_run resolved))
  exact ⟨_, linked, covered, start, uncovered, covering, live,
    wired.congr (fun _ => rfl) (fun _ => rfl) (fun _ _ _ => .rfl) fun _ => id, Building.lift_run_ok run⟩

/-- What a block hands to a handler, in the graph of a method. -/
theorem catches_of_run (run : (Graph.ofMethod m).run = .ok (.ok g)) (found : g.blocks[b]? = some block) (h : Nat) :
    g.catches b h = ((m.exceptions.filter fun r => r.handlerPc == h && r.holds block).map
      ExceptionRange.catchType).foldl (fun kinds t => alsoCatching t kinds) [] := by
  obtain ⟨blockOf, linked, covered, start, uncovered, covering, live, wired, renumber⟩ := covered_of_run run
  obtain ⟨same, _, catches⟩ := Scan.coverAll_catches uncovered.laid uncovered.wired uncovered.placed covering
  obtain ⟨_, renumber', numbered⟩ := wired.renumber live.lt
  cases renumber'.ok_unique renumber
  obtain ⟨old, found', pc, ops, kept⟩ := numbered.sameBodies.symm.block found
  obtain ⟨older, found'', pc', ops', kept'⟩ := same.symm.block found'
  have used := (uncovered.laid.segment b older found'').2.2
  rw [numbered.catches, ← uncovered.free b h ⟨older, found'', used⟩]
  simp only [← ExceptionRange.holds_congr (pc'.trans pc) (ops'.trans ops)]
  exact catches b older h found''

/-- The edges to handlers are those that the exception table asks for. Every operation is in one block, and this
block has an edge to a handler exactly if a range with this handler covers the operation. The edge is the only
one to the handler and catches the types of all these ranges, in the order of the table and each once. -/
theorem handlers_follow_table (run : (Graph.ofMethod m).run = .ok (.ok g)) {p : Nat} (inside : p < m.ops.length) :
    ∃ b block outs, (b, block) ∈ g.live ∧ p ∈ block.ops.map Operation.pc ∧
      (∀ other ∈ g.live, p ∈ other.2.ops.map Operation.pc → other = (b, block)) ∧ g.outs b = .ok outs ∧
      ∀ h, let covering := m.exceptions.filter fun r => r.handlerPc == h && r.covers p
        (g.handlerEdges outs h ≠ [] ↔ ∃ r ∈ m.exceptions, r.handlerPc = h ∧ r.startPc ≤ p ∧ p < r.endPc) ∧
          (g.handlerEdges outs h).map (fun out => out.2.kind) =
            if covering = [] then [] else [.handler (covering.map ExceptionRange.catchType).eraseDups] := by
  have built := (ofMethod_yields m).of_run run
  have wellFormed := wellFormed_of_run run
  obtain ⟨b, block, found, lower, upper⟩ := built.covered p inside
  obtain ⟨outs, leaving⟩ := built.wired.outs_total found
  refine ⟨b, block, outs, built.mem_live.mpr found, (built.mem_pcs found).mpr ⟨lower, upper⟩, ?_, leaving, fun h => ?_⟩
  · rintro ⟨c, other⟩ live member
    have found' := built.mem_live.mp live
    obtain ⟨lower', upper'⟩ := (built.mem_pcs found').mp member
    cases built.apart b c block other p found found' lower upper lower' upper'
    rw [Option.some.inj (found.symm.trans found')]
  · intro covering
    have same : m.exceptions.filter (fun r => r.handlerPc == h && r.holds block) = covering :=
      List.filter_congr fun r member => by
        rw [built.holds_eq_covers member (wellFormed.ranges r member).2.1 found lower upper]
    have kinds : (g.handlerEdges outs h).map (fun out => out.2.kind) =
        if covering = [] then [] else [.handler (covering.map ExceptionRange.catchType).eraseDups] := by
      rw [← built.catches_eq built.wired found leaving, catches_of_run run found, foldl_alsoCatching, same]
      simp only [List.map_eq_nil_iff]
    refine ⟨?_, kinds⟩
    have isCovered : covering ≠ [] ↔ ∃ r ∈ m.exceptions, r.handlerPc = h ∧ r.startPc ≤ p ∧ p < r.endPc := by
      simp [covering, ExceptionRange.covers]
    rw [← isCovered, ne_eq, ← List.map_eq_nil_iff (f := fun out => out.2.kind), kinds]
    by_cases none : covering = [] <;> simp [none]

/-- Ranges that overlap and share a handler, which one of them covers too. The jump goes back into its own block. -/
def guarded : MethodInput where
  info := MethodInfo.plain "guarded" 1 1
  ops := [⟨0, 0, -1, .push .int (.int 3)⟩, ⟨0, 0, -1, .store .int 0⟩, ⟨0, 0, -1, .load .int 0⟩,
    ⟨0, 0, -1, .jumpZero .int .ne 1⟩, ⟨0, 0, -1, .leave .void⟩, ⟨0, 0, -1, .raise⟩, ⟨0, 0, -1, .raise⟩]
  exceptions := [⟨0, 4, 5, some .throwable⟩, ⟨1, 6, 5, none⟩, ⟨2, 4, 6, none⟩, ⟨2, 3, 5, some .throwable⟩]

theorem handlers_follow_table_guarded : ∃ g b block outs, (Graph.ofMethod guarded).run = .ok (.ok g) ∧
    (b, block) ∈ g.live ∧ 2 ∈ block.ops.map Operation.pc ∧ g.outs b = .ok outs ∧
    (g.handlerEdges outs 5).map (fun out => out.2.kind) = [.handler [some .throwable, none]] := by
  obtain ⟨g, run⟩ := Building.run_of_result (show (Graph.ofMethod guarded).result?.isSome by decide +kernel)
  obtain ⟨b, block, outs, live, inside, _, leaving, edges⟩ := handlers_follow_table run (p := 2) (by decide)
  exact ⟨g, b, block, outs, run, live, inside, leaving, (edges 5).2⟩

end Graph

end Unstack
