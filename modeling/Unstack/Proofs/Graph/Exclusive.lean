import Unstack.Proofs.Build.Jumps
import Unstack.Proofs.Graph.Content

namespace Unstack

/-- Ways to go on that exclude each other. -/
inductive FlowGroup where
  | sequence
  | branch
  | switch
  | enterSub
  | leaveSub
  deriving DecidableEq

namespace EdgeKind

/-- The way to go on that an edge belongs to; a handler may stand beside any of them. -/
def group? : EdgeKind → Option FlowGroup
  | sequence => some .sequence
  | whenTrue | whenFalse => some .branch
  | switchCase _ => some .switch
  | handler _ => none
  | enterSub _ => some .enterSub
  | leaveSub _ => some .leaveSub

/-- The kind without the labels of a switch. -/
def plain : EdgeKind → EdgeKind
  | switchCase _ => switchCase []
  | kind => kind

theorem plain_group? (kind : EdgeKind) : kind.plain.group? = kind.group? := by cases kind <;> rfl

theorem isHandler_iff_group? (kind : EdgeKind) : kind.isHandler = true ↔ kind.group? = none := by
  cases kind <;> simp [isHandler, group?]

end EdgeKind

/-- Kinds of edges that may leave one block: at most one sequence edge, no edge of a branch or one for each of its
values, and never two ways to go on that exclude each other. -/
structure Exclusive (kinds : List EdgeKind) : Prop where
  sequence : kinds.count .sequence ≤ 1
  branch : (.whenTrue ∉ kinds ∧ .whenFalse ∉ kinds) ∨ (kinds.count .whenTrue = 1 ∧ kinds.count .whenFalse = 1)
  alone (kind other : EdgeKind) (way way' : FlowGroup) : kind ∈ kinds → other ∈ kinds → kind.group? = some way →
    other.group? = some way' → way = way'

namespace Exclusive

variable {kinds kinds' : List EdgeKind}

theorem nil : Exclusive [] := ⟨by simp, by simp, by simp⟩

theorem eq_of_group {way way₁ way₂ : FlowGroup} {kind other : EdgeKind}
    (all : ∀ kind ∈ kinds, kind.group? = none ∨ kind.group? = some way) (member : kind ∈ kinds) (member' : other ∈ kinds)
    (first : kind.group? = some way₁) (second : other.group? = some way₂) : way₁ = way₂ := by
  have atFirst := (all kind member).resolve_left (by simp [first])
  have atSecond := (all other member').resolve_left (by simp [second])
  rw [first] at atFirst
  rw [second] at atSecond
  rw [Option.some.inj atFirst, Option.some.inj atSecond]

/-- One way to go on that neither is a sequence nor a branch may be taken by any number of edges. -/
theorem of_group (way : FlowGroup) (other : way ≠ .sequence ∧ way ≠ .branch)
    (all : ∀ kind ∈ kinds, kind.group? = none ∨ kind.group? = some way) : Exclusive kinds := by
  have absent (kind : EdgeKind) (away : kind.group? ≠ none ∧ kind.group? ≠ some way) : kind ∉ kinds := by
    intro member
    exact (all kind member).elim away.1 away.2
  refine ⟨?_, .inl ⟨?_, ?_⟩, ?_⟩
  · rw [List.count_eq_zero_of_not_mem]
    · omega
    · exact absent _ (by simp [EdgeKind.group?, Ne.symm other.1])
  · exact absent _ (by simp [EdgeKind.group?, Ne.symm other.2])
  · exact absent _ (by simp [EdgeKind.group?, Ne.symm other.2])
  · exact fun _ _ _ _ => eq_of_group all

/-- Handlers and one sequence edge behind them. -/
theorem snoc_sequence (handlers : ∀ kind ∈ kinds, kind.group? = none) : Exclusive (kinds ++ [.sequence]) := by
  have absent (kind : EdgeKind) (flow : kind.group? ≠ none) : kind ∉ kinds := fun member => flow (handlers kind member)
  have way : ∀ kind ∈ kinds ++ [.sequence], kind.group? = none ∨ kind.group? = some .sequence :=
    forall_mem_snoc (fun kind before => .inl (handlers kind before)) (.inr rfl)
  refine ⟨?_, .inl ⟨?_, ?_⟩, ?_⟩
  · rw [List.count_append, List.count_eq_zero_of_not_mem (absent _ (by simp [EdgeKind.group?]))]
    simp
  · simpa using absent .whenTrue (by simp [EdgeKind.group?])
  · simpa using absent .whenFalse (by simp [EdgeKind.group?])
  · exact fun _ _ _ _ => eq_of_group way

theorem branches : Exclusive [.whenTrue, .whenFalse] ∧ Exclusive [.whenFalse, .whenTrue] := by
  have alone (kinds : List EdgeKind) (all : ∀ kind ∈ kinds, kind.group? = none ∨ kind.group? = some .branch) :=
    fun kind other way way' => @eq_of_group kinds .branch way way' kind other all
  exact ⟨⟨by decide, by decide, alone _ (by decide)⟩, ⟨by decide, by decide, alone _ (by decide)⟩⟩

theorem count_plain (kinds : List EdgeKind) {kind : EdgeKind} (unlabelled : kind.group? ≠ some .switch) :
    (kinds.map EdgeKind.plain).count kind = kinds.count kind := by
  rw [List.count_eq_countP, List.countP_map, List.count_eq_countP]
  refine List.countP_congr fun other _ => ?_
  cases other with
  | switchCase labels =>
    have away (labels : List CaseLabel) : EdgeKind.switchCase labels ≠ kind := by
      rintro rfl
      exact unlabelled rfl
    simp [EdgeKind.plain, away]
  | _ => rfl

/-- The labels of a switch do not matter. -/
theorem congr (same : kinds'.map EdgeKind.plain = kinds.map EdgeKind.plain) (exclusive : Exclusive kinds) :
    Exclusive kinds' := by
  have count (kind : EdgeKind) (unlabelled : kind.group? ≠ some .switch) : kinds'.count kind = kinds.count kind := by
    rw [← count_plain kinds' unlabelled, same, count_plain kinds unlabelled]
  have member {kind : EdgeKind} (inside : kind ∈ kinds') : ∃ old ∈ kinds, old.group? = kind.group? := by
    have inside' : kind.plain ∈ kinds.map EdgeKind.plain := same ▸ List.mem_map_of_mem inside
    obtain ⟨old, listed, agree⟩ := List.mem_map.mp inside'
    exact ⟨old, listed, by rw [← EdgeKind.plain_group?, agree, EdgeKind.plain_group?]⟩
  refine ⟨?_, ?_, ?_⟩
  · rw [count .sequence (by simp [EdgeKind.group?])]
    exact exclusive.sequence
  · rw [← List.count_eq_zero, ← List.count_eq_zero, count .whenTrue (by simp [EdgeKind.group?]),
      count .whenFalse (by simp [EdgeKind.group?]), List.count_eq_zero, List.count_eq_zero]
    exact exclusive.branch
  · intro kind kind' way way' inside inside' first second
    obtain ⟨old, listed, agree⟩ := member inside
    obtain ⟨old', listed', agree'⟩ := member inside'
    exact exclusive.alone old old' way way' listed listed' (agree.trans first) (agree'.trans second)

/-- Handlers may be left out of account. -/
theorem of_flow (exclusive : Exclusive (kinds.filter fun kind => !kind.isHandler)) : Exclusive kinds := by
  have count (kind : EdgeKind) (flow : kind.isHandler = false) :
      (kinds.filter fun kind => !kind.isHandler).count kind = kinds.count kind := List.count_filter (by simp [flow])
  have inside {kind : EdgeKind} {way : FlowGroup} (member : kind ∈ kinds) (group : kind.group? = some way) :
      kind ∈ kinds.filter fun kind => !kind.isHandler := by
    refine List.mem_filter.mpr ⟨member, ?_⟩
    rw [Bool.not_eq_true', Bool.eq_false_iff, ne_eq, EdgeKind.isHandler_iff_group?, group]
    simp
  have mem (kind : EdgeKind) (flow : kind.isHandler = false) :
      kind ∈ (kinds.filter fun kind => !kind.isHandler) ↔ kind ∈ kinds := by simp [List.mem_filter, flow]
  refine ⟨?_, ?_, ?_⟩
  · rw [← count .sequence rfl]
    exact exclusive.sequence
  · rw [← count .whenTrue rfl, ← count .whenFalse rfl, ← mem .whenTrue rfl, ← mem .whenFalse rfl]
    exact exclusive.branch
  · intro kind kind' way way' member member' first second
    exact exclusive.alone kind kind' way way' (inside member first) (inside member' second) first second

end Exclusive

/-- Where an operation leads is one way to go on. -/
theorem Instr.exclusive_exits (pc : Nat) (instr : Instr) : Exclusive ((instr.exits pc).map Prod.fst) := by
  have single : Exclusive ([] ++ [.sequence]) := Exclusive.snoc_sequence (by simp)
  cases instr with
  | jumpCompare t relation target | jumpZero t relation target =>
    simp only [exits]
    split
    · exact Exclusive.branches.2
    · exact Exclusive.branches.1
  | switch keys targets fallback =>
    refine .of_group .switch (by simp) fun kind member => ?_
    simp only [exits, switchExits, List.map_map, List.mem_map, Function.comp_apply] at member
    obtain ⟨target, _, rfl⟩ := member
    exact .inr rfl
  | enterSub target => exact .of_group .enterSub (by simp) (by simp [exits, EdgeKind.group?])
  | leave | raise | leaveSub => exact .nil
  | _ => exact single

namespace Graph

variable {g g' : Graph} {b i : BlockId}

/-- The kinds of the edges that leave a block, in order. -/
def kindsOf (g : Graph) (b : BlockId) : List EdgeKind :=
  (g.outsOf b).filterMap fun e => g.edges[e]?.map Edge.kind

/-- Edges of every block exclude each other where they have to. -/
def IsExclusive (g : Graph) : Prop := ∀ b, Exclusive (g.kindsOf b)

theorem kindsOf_congr (outs : g'.outsOf b = g.outsOf b)
    (kinds : ∀ e ∈ g.outsOf b, g'.edges[e]?.map Edge.kind = g.edges[e]?.map Edge.kind) :
    g'.kindsOf b = g.kindsOf b := by
  unfold kindsOf
  rw [outs]
  exact List.filterMap_congr kinds

theorem kindsOf_eq_map {outs : List (EdgeId × Edge)} (run : g.outs b = .ok outs) :
    g.kindsOf b = outs.map fun out => out.2.kind := by
  obtain ⟨block, found, _⟩ := bind_eq_ok.mp run
  have ⟨names, listed⟩ := (outs_eq_ok (block_eq_ok.mp found)).mp run
  have each (out : EdgeId × Edge) (member : out ∈ outs) :
      ((fun e => g.edges[e]?.map Edge.kind) ∘ Prod.fst) out = (some ∘ fun out => out.2.kind) out := by
    simp [listed out member]
  rw [kindsOf, outsOf_eq (block_eq_ok.mp found), ← names, List.filterMap_map, List.filterMap_congr each,
    List.filterMap_eq_map]

theorem Wired.mem_kindsOf (wired : g.Wired) {kind : EdgeKind} :
    kind ∈ g.kindsOf b ↔ ∃ e edge target, g.edges[e]? = some edge ∧ edge.kind = kind ∧ g.Joins e b target := by
  simp only [kindsOf, List.mem_filterMap, wired.mem_outs, Option.map_eq_some_iff]
  constructor
  · rintro ⟨e, ⟨target, joins⟩, edge, atEdge, rfl⟩
    exact ⟨e, edge, target, atEdge, rfl, joins⟩
  · rintro ⟨e, edge, target, atEdge, rfl, joins⟩
    exact ⟨e, ⟨target, joins⟩, edge, atEdge, rfl⟩

/-- A kind that a block has once belongs to one edge. -/
theorem Wired.edge_unique (wired : g.Wired) {kind : EdgeKind} (once : (g.kindsOf b).count kind = 1) {e e' : EdgeId}
    {edge edge' : Edge} {target target' : BlockId} (atEdge : g.edges[e]? = some edge) (isKind : edge.kind = kind)
    (joins : g.Joins e b target) (atEdge' : g.edges[e']? = some edge') (isKind' : edge'.kind = kind)
    (joins' : g.Joins e' b target') : e = e' := by
  have found {e : EdgeId} {edge : Edge} {target : BlockId} (atEdge : g.edges[e]? = some edge) (isKind : edge.kind = kind)
      (joins : g.Joins e b target) : e ∈ (g.outsOf b).filter fun e => (g.edges[e]?.map Edge.kind) = some kind := by
    refine List.mem_filter.mpr ⟨(wired.mem_outs b e).mpr ⟨target, joins⟩, ?_⟩
    simp [atEdge, isKind]
  have single : ((g.outsOf b).filter fun e => (g.edges[e]?.map Edge.kind) = some kind).length = 1 := by
    rw [← once, kindsOf, List.count_filterMap, List.countP_eq_length_filter]
    congr 1
    refine List.filter_congr fun e _ => ?_
    cases g.edges[e]? <;> simp [beq_eq_decide]
  obtain ⟨only, same⟩ := List.length_eq_one_iff.mp single
  have first := found atEdge isKind joins
  have second := found atEdge' isKind' joins'
  rw [same, List.mem_singleton] at first second
  rw [first, second]

theorem Wired.kindsOf_eq_nil (wired : g.Wired) (unused : ¬ g.Live b) : g.kindsOf b = [] := by
  refine List.eq_nil_iff_forall_not_mem.mpr fun kind member => ?_
  obtain ⟨e, _, _, _, _, joins⟩ := wired.mem_kindsOf.mp member
  exact unused (wired.ends_live e _ _ joins).1

theorem kindsOf_altered {change : Block → Block} (keeps : KeepsWiring change) (b i : BlockId) :
    (g.altered b change).kindsOf i = g.kindsOf i := by
  refine kindsOf_congr ?_ fun _ _ => rfl
  simp only [outsOf, altered_block]
  split
  · cases g.blocks[i]? <;> simp [keeps _]
  · rfl

theorem kindsOf_pushed (b : BlockId) (expr : Expr) (i : BlockId) : (g.pushed b expr).kindsOf i = g.kindsOf i :=
  kindsOf_altered (keepsWiring_push _) b i

theorem Renumbered.kindsOf (numbered : Renumbered g g') (i : BlockId) : g'.kindsOf i = g.kindsOf i := by
  refine kindsOf_congr (numbered.outsOf i) fun e _ => ?_
  obtain ⟨back, found⟩ := numbered.edges e
  simp only [found, Option.map_map]
  rfl

theorem kindsOf_movedIns (source dest : BlockId) (entering : List EdgeId) (i : BlockId) :
    (g.movedIns source dest entering).kindsOf i = g.kindsOf i := by
  refine kindsOf_congr (movedIns_outsOf g source dest entering i) fun e _ => ?_
  simp only [movedIns, Array.getElem?_mapIdx, Option.map_map]
  refine congrArg (Option.map · _) (funext fun edge => ?_)
  simp only [Function.comp_apply]
  split <;> rfl

theorem Wired.kindsOf_withEdge (wired : g.Wired) {source : BlockId} (inside : source < g.blocks.size) (target : BlockId)
    (kind : EdgeKind) (i : BlockId) :
    (g.withEdge source target kind).kindsOf i = if source = i then g.kindsOf i ++ [kind] else g.kindsOf i := by
  have old (e : EdgeId) (member : e ∈ g.outsOf i) :
      (g.withEdge source target kind).edges[e]?.map Edge.kind = g.edges[e]?.map Edge.kind := by
    have aged : e ≠ g.edges.size := by
      rintro rfl
      exact wired.fresh_outs i member
    rw [withEdge_edge, if_neg aged]
  unfold kindsOf
  rw [withEdge_outsOf g inside]
  split
  · rw [List.filterMap_append, List.filterMap_congr old]
    simp [withEdge_edge]
  · rw [List.filterMap_congr old]

theorem kindsOf_without {gone : List EdgeId} (kept : ∀ e ∈ g.outsOf b, e ∉ gone) :
    (g.without gone).kindsOf b = g.kindsOf b := by
  refine kindsOf_congr ?_ fun e _ => ?_
  · rw [without_outsOf]
    exact List.filter_eq_self.mpr fun e member => by simpa using kept e member
  · rw [without_edge, Option.map_map]
    rfl

/-- Taking out a block is no matter of the blocks that do not lead to it. -/
theorem Wired.kindsOf_withoutBlock (wired : g.Wired) (other : i ≠ b) (apart : ∀ e, ¬ g.Joins e i b) :
    (g.withoutBlock b).kindsOf i = g.kindsOf i := by
  have kept (e : EdgeId) (member : e ∈ g.outsOf i) : e ∉ g.insOf b ++ g.outsOf b := by
    obtain ⟨target, joins⟩ := (wired.mem_outs i e).mp member
    rw [List.mem_append, wired.mem_ins, wired.mem_outs]
    rintro (⟨source, entering⟩ | ⟨target', leaving⟩)
    · exact apart e ((joins.unique entering).1 ▸ entering)
    · exact other (joins.unique leaving).1
  rw [← kindsOf_without kept]
  exact kindsOf_congr (withoutBlock_outsOf b i) fun _ _ => rfl

theorem Wired.kindsOf_withoutBlocks (wired : g.Wired) {dead : List BlockId} (other : i ∉ dead)
    (apart : ∀ e target, g.Joins e i target → target ∉ dead) : (g.withoutBlocks dead).kindsOf i = g.kindsOf i := by
  induction dead generalizing g with
  | nil => rfl
  | cons b rest ih =>
    have first := wired.kindsOf_withoutBlock (b := b) (List.ne_of_not_mem_cons other)
      fun e joins => apart e b joins (.head _)
    refine (ih (wired.withoutBlock b) (List.not_mem_of_not_mem_cons other) fun e target joins => ?_).trans first
    have before := ((wired.withoutBlock_joins b e i target).mp joins).1
    exact List.not_mem_of_not_mem_cons (apart e target before)

/-- Joining two blocks is no matter of the others, unless it takes a block out that others lead to. -/
theorem kindsOf_joined (wired : g.Wired) {pred : BlockId} {front : Block} (found : g.blocks[pred]? = some front)
    (live : g.Live b) (closed : b = pred → ∀ e source, g.Joins e source b → source = b) (other : i ≠ pred) :
    (g.joined b pred front).kindsOf i = g.kindsOf i := by
  have gathered := gathered_wired wired b pred front
  obtain ⟨block, atPred, sameIns⟩ := gathered_front found b
  have inside : b < (g.gathered b pred front).blocks.size := by simpa [Graph.gathered] using live.lt
  have moved := gathered.movedIns atPred inside (.inl ((gathered_live b pred front b).mpr live))
  have joins := gathered.movedIns_joins atPred b
  rw [sameIns] at moved joins
  rw [joined, moved.kindsOf_withoutBlock other, kindsOf_movedIns]
  · refine kindsOf_congr ?_ fun _ _ => rfl
    simp only [outsOf, Graph.gathered, Array.getElem?_modify]
    by_cases atBlock : b = i <;> by_cases atFront : pred = i <;> cases g.blocks[i]? <;> simp [atBlock, atFront, prepend]
  · intro e entering
    obtain ⟨old, before, target⟩ := (joins e i pred).mp entering
    by_cases same : b = pred
    · have toPred : old = pred := by
        split at target
        · assumption
        · exact target.symm
      exact other ((closed same e i (by rw [same, ← toPred]; exact before)).trans same)
    · split at target
      · exact same target.symm
      · rename_i away
        exact away target.symm

theorem Wired.flow_kindsOf (wired : g.Wired) :
    (g.kindsOf b).filter (fun kind => !kind.isHandler) = (g.flowExits b).map Prod.fst := by
  rw [kindsOf, flowExits, List.filter_filterMap, List.map_filterMap]
  refine List.filterMap_congr fun e member => ?_
  obtain ⟨target, edge, atEdge, used, source, rfl⟩ := (wired.mem_outs b e).mp member
  obtain ⟨_, block, atTarget, _⟩ := wired.ends_live e _ _ ⟨edge, atEdge, used, source, rfl⟩
  rw [exitOf_eq edge block atEdge atTarget, atEdge]
  cases flow : edge.kind.isHandler <;> simp [Option.filter, flow]

/-- A block goes on in one way, as its last operation does. -/
theorem Built.isExclusive {m : MethodInput} (ofMethod : g.Built m) : g.IsExclusive := by
  intro b
  by_cases live : g.Live b
  · obtain ⟨block, found, _⟩ := live
    have atEnd := List.getLast?_eq_getLast_of_ne_nil (ofMethod.segment b block found).1
    apply Exclusive.of_flow
    rw [ofMethod.wired.flow_kindsOf, ofMethod.flows b block _ found atEnd, Operation.exits_eq]
    exact Instr.exclusive_exits _ _
  · rw [ofMethod.wired.kindsOf_eq_nil live]
    exact .nil

end Graph

end Unstack
