import Unstack.Proofs.Recovery.Prepared

namespace Unstack

namespace Graph

variable {n : Nat} {g g' : Graph} {b : BlockId}

theorem IsExclusive.congr (exclusive : g.IsExclusive) (same : ∀ i, g'.kindsOf i = g.kindsOf i) : g'.IsExclusive :=
  fun i => same i ▸ exclusive i

/-- What is no longer reached can be taken out. -/
theorem Wired.isExclusive_withoutBlocks (wired : g.Wired) {dead : List BlockId}
    (unreached : ∀ i, i ∈ dead ↔ g.Live i ∧ ¬ g.Reachable i) (exclusive : ∀ i, Exclusive (g.kindsOf i)) :
    (g.withoutBlocks dead).IsExclusive := by
  intro i
  by_cases live : (g.withoutBlocks dead).Live i
  · obtain ⟨live', kept⟩ := (withoutBlocks_live dead i).mp live
    have reached : g.Reachable i := by
      by_contra lost
      exact kept ((unreached i).mpr ⟨live', lost⟩)
    rw [wired.kindsOf_withoutBlocks kept]
    · exact exclusive i
    · intro e target joins lost
      exact ((unreached target).mp lost).2 (reached.tail ⟨e, joins⟩)
  · rw [(wired.withoutBlocks dead).kindsOf_eq_nil live]
    exact .nil

theorem mem_of_kindsOf_without {gone : List EdgeId} {kind : EdgeKind} (member : kind ∈ (g.without gone).kindsOf b) :
    kind ∈ g.kindsOf b := by
  obtain ⟨e, listed, found⟩ := List.mem_filterMap.mp member
  rw [without_edge, Option.map_map] at found
  rw [without_outsOf] at listed
  exact List.mem_filterMap.mpr ⟨e, (List.mem_filter.mp listed).1, found⟩

/-- The first way to go on stays the only one. -/
theorem Wired.setSucc_handlers (wired : g.Wired) {dest : BlockId} (live : g.Live b) (liveDest : g.Live dest)
    (handlers : ∀ kind ∈ g.kindsOf b, kind.group? = none) :
    g.setSucc b dest = .ok (g.edges.size, g.withEdge b dest .sequence) := by
  have quiet (seq yes no : Bool) (outs : List (EdgeId × Edge)) (all : ∀ out ∈ outs, out.2.kind.group? = none) :
      staleOuts seq yes no outs = [] := by
    induction outs with
    | nil => rfl
    | cons out rest ih =>
      have here := all out (.head _)
      have later := ih fun out member => all out (.tail _ member)
      unfold staleOuts
      split <;> simp_all [EdgeKind.group?]
  obtain ⟨outs, leaving, _⟩ := (wired.withEdge .sequence live liveDest).leaving (by simpa using live.lt)
  have kinds := kindsOf_eq_map leaving
  rw [wired.kindsOf_withEdge live.lt, if_pos rfl] at kinds
  obtain ⟨before, last, rfl, sameKinds, isLast⟩ := List.append_eq_map_iff.mp kinds
  obtain ⟨out, rfl, isSequence⟩ : ∃ out, last = [out] ∧ out.2.kind = .sequence := by
    obtain ⟨out, rest, rfl, kind, none⟩ := List.map_eq_cons_iff.mp isLast
    exact ⟨out, by rw [List.map_eq_nil_iff.mp none], kind⟩
  have fresh : staleOuts false false false (before ++ [out]).reverse = [] := by
    obtain ⟨e, edge⟩ := out
    have isSequence : edge.kind = .sequence := isSequence
    simp only [List.reverse_append, List.reverse_singleton, List.singleton_append, staleOuts, isSequence]
    refine quiet _ _ _ _ fun out member => handlers _ ?_
    exact sameKinds ▸ List.mem_map_of_mem (List.mem_reverse.mp member)
  simp only [setSucc, addEdge_eq .sequence live.lt liveDest.lt, ok_bind, cleanupOuts_eq_self leaving fresh]
  rfl

section Diamond

variable {head whenTrue whenFalse : BlockId} {front : Block} {cond : Expr} {yes no : StackValue}

theorem withoutArms_kind (e : EdgeId) :
    (g.withoutArms head whenTrue whenFalse).edges[e]?.map Edge.kind = g.edges[e]?.map Edge.kind := by
  change ((((g.altered head Block.unbranched).withoutBlock whenTrue).without _).edges[e]?).map Edge.kind = _
  rw [without_edge, Option.map_map]
  change (((g.altered head Block.unbranched).without _).edges[e]?).map Edge.kind = _
  rw [without_edge, Option.map_map]
  rfl

theorem Wired.withoutArms_joins (wired : g.Wired) {e : EdgeId} {source target : BlockId} :
    (g.withoutArms head whenTrue whenFalse).Joins e source target ↔
      g.Joins e source target ∧ (source ≠ whenTrue ∧ source ≠ whenFalse) ∧ target ≠ whenTrue ∧ target ≠ whenFalse := by
  have wired₁ := altered_wired wired head Block.keepsWiring_unbranched
  have same : (g.altered head Block.unbranched).Joins e source target ↔ g.Joins e source target := .rfl
  rw [Graph.withoutArms, (wired₁.withoutBlock whenTrue).withoutBlock_joins, wired₁.withoutBlock_joins, same]
  tauto

/-- Only the head leads to its arms. -/
theorem Diamond.from_head (diamond : g.Diamond b head front cond whenTrue whenFalse yes no) {e : EdgeId}
    {source target : BlockId} (isArm : target = whenTrue ∨ target = whenFalse) (joins : g.Joins e source target) :
    source = head := by
  rcases isArm with rfl | rfl
  · obtain ⟨e', _, _, _, joins'⟩ := diamond.branches.yes
    cases diamond.yes.once e e' _ _ joins joins'
    exact (joins.unique joins').1
  · obtain ⟨e', _, _, _, joins'⟩ := diamond.branches.no
    cases diamond.no.once e e' _ _ joins joins'
    exact (joins.unique joins').1

/-- Without its arms, nothing but handlers is left to the head, and other blocks lose no edge. -/
theorem Diamond.isExclusive_withoutArms (wired : g.Wired) (exclusive : g.IsExclusive)
    (diamond : g.Diamond b head front cond whenTrue whenFalse yes no) :
    (∀ kind ∈ (g.withoutArms head whenTrue whenFalse).kindsOf head, kind.group? = none) ∧
      (g.withoutArms head whenTrue whenFalse).IsExclusive := by
  have bare := wired.withoutArms head whenTrue whenFalse
  have handlers : ∀ kind ∈ (g.withoutArms head whenTrue whenFalse).kindsOf head, kind.group? = none := by
    intro kind member
    obtain ⟨e, edge, target, atEdge, rfl, joins⟩ := bare.mem_kindsOf.mp member
    obtain ⟨joins, _, notTrue, notFalse⟩ := wired.withoutArms_joins.mp joins
    obtain ⟨old, atOld, sameKind⟩ : ∃ old, g.edges[e]? = some old ∧ old.kind = edge.kind := by
      have same : (g.withoutArms head whenTrue whenFalse).edges[e]?.map Edge.kind = _ := withoutArms_kind e
      rw [atEdge] at same
      exact Option.map_eq_some_iff.mp same.symm
    obtain ⟨eTrue, edgeTrue, atTrue, isTrue, joinsTrue⟩ := diamond.branches.yes
    obtain ⟨eFalse, edgeFalse, atFalse, isFalse, joinsFalse⟩ := diamond.branches.no
    have listed : .whenTrue ∈ g.kindsOf head := wired.mem_kindsOf.mpr ⟨eTrue, edgeTrue, _, atTrue, isTrue, joinsTrue⟩
    have once := (exclusive head).branch.resolve_left fun absent => absent.1 listed
    rw [← sameKind]
    by_contra flows
    obtain ⟨way, isWay⟩ := Option.ne_none_iff_exists'.mp flows
    have branch := (exclusive head).alone _ _ _ _ (wired.mem_kindsOf.mpr ⟨e, old, target, atOld, rfl, joins⟩) listed
      isWay rfl
    rw [branch] at isWay
    -- both edges of the branch lead to an arm
    cases isKind : old.kind with
    | whenTrue =>
      cases wired.edge_unique once.1 atOld isKind joins atTrue isTrue joinsTrue
      exact notTrue (joins.unique joinsTrue).2
    | whenFalse =>
      cases wired.edge_unique once.2 atOld isKind joins atFalse isFalse joinsFalse
      exact notFalse (joins.unique joinsFalse).2
    | _ =>
      rw [isKind] at isWay
      cases isWay
  refine ⟨handlers, fun i => ?_⟩
  by_cases live : (g.withoutArms head whenTrue whenFalse).Live i
  · by_cases here : i = head
    · subst here
      exact .of_group .switch (by simp) fun kind member => .inl (handlers kind member)
    · obtain ⟨_, notTrue, notFalse⟩ := (withoutArms_live i).mp live
      have wired₁ := altered_wired wired head Block.keepsWiring_unbranched
      rw [Graph.withoutArms, (wired₁.withoutBlock whenTrue).kindsOf_withoutBlock notFalse,
        wired₁.kindsOf_withoutBlock notTrue, kindsOf_altered Block.keepsWiring_unbranched]
      · exact exclusive i
      · exact fun e joins => here (diamond.from_head (.inl rfl) joins)
      · intro e joins
        exact here (diamond.from_head (.inr rfl) ((wired₁.withoutBlock_joins whenTrue e i whenFalse).mp joins).1)
  · rw [bare.kindsOf_eq_nil live]
    exact .nil

end Diamond

theorem isExclusive_joined (wired : g.Wired) {pred : BlockId} {front : Block} (found : g.blocks[pred]? = some front)
    (live : g.Live b) (closed : b = pred → ∀ e source, g.Joins e source b → source = b)
    (exclusive : ∀ i, i ≠ pred → Exclusive (g.kindsOf i)) : (g.joined b pred front).IsExclusive := by
  intro i
  by_cases here : i = pred
  · rw [(joinPred_eq wired found live.lt (.inl live)).2.kindsOf_eq_nil fun live' =>
      ((joined_live b pred front i).mp live').2 here]
    exact .nil
  · rw [kindsOf_joined wired found live closed here]
    exact exclusive i here

theorem Wired.isExclusive_foldConditional (wired : g.Wired) (exclusive : g.IsExclusive)
    (run : g.foldConditional b = .ok (some g')) : g'.IsExclusive := by
  obtain ⟨head, front, cond, whenTrue, whenFalse, yes, no, diamond, folding⟩ := wired.foldConditional_some run
  have bare := wired.withoutArms head whenTrue whenFalse
  obtain ⟨stays, headStays⟩ := diamond.stay wired
  obtain ⟨handlers, exclusive₁⟩ := diamond.isExclusive_withoutArms wired exclusive
  rcases diamond.foldArms_some wired folding with ⟨entered, front', atFront, rfl⟩ | ⟨e, setting⟩
  · refine (isExclusive_joined bare atFront stays (fun _ e source joins => ?_) fun i _ => exclusive₁ i).congr
      (kindsOf_pushed b _)
    have entry := (bare.mem_ins b e).mpr ⟨source, joins⟩
    rw [entered] at entry
    cases entry
  · have wired₂ := pushed_wired bare head (cond.ofArms yes.expr no.expr)
    have live₂ := (pushed_live head (cond.ofArms yes.expr no.expr) head).mpr headStays
    have liveDest := (pushed_live head (cond.ofArms yes.expr no.expr) b).mpr stays
    rw [wired₂.setSucc_handlers live₂ liveDest (by rwa [kindsOf_pushed])] at setting
    cases setting
    intro i
    rw [wired₂.kindsOf_withEdge live₂.lt, kindsOf_pushed]
    split
    · rename_i here
      subst here
      exact .snoc_sequence handlers
    · exact exclusive₁ i

theorem Wired.isExclusive_fuseBranches (wired : g.Wired) (exclusive : g.IsExclusive)
    (run : g.fuseBranches b = .ok (some g')) : g'.IsExclusive := by
  obtain ⟨pred, front, block, first, second, cond, front', fusion, atFront, rfl⟩ := wired.fuseBranches_some run
  obtain ⟨_, _, _, _, _, branches, _⟩ := fusion.front
  refine isExclusive_joined (wired.withFused b pred cond) atFront ((withFused_live b).mpr (branches.live wired))
    (fun same => absurd same.symm fusion.apart) fun i _ => ?_
  rw [Graph.withFused, kindsOf_altered Block.keepsWiring_beheaded, kindsOf_altered (Block.keepsWiring_recond cond)]
  exact exclusive i

theorem Wired.isExclusive_foldCachedClass (wired : g.Wired) (exclusive : g.IsExclusive)
    (run : g.foldCachedClass b = .ok (some g')) : g'.IsExclusive := by
  obtain ⟨head, follow, front, name, t, front', cached, atFront, rfl⟩ := wired.foldCachedClass_some run
  obtain ⟨e, _, _, _, onward⟩ := cached.onward
  obtain ⟨only, entry, unique⟩ := wired.only_entry cached.only
  have wired₁ := altered_wired wired head Block.keepsWiring_untested
  have bare := wired.withoutFill b head
  have stays : (g.withoutFill b head).Live follow :=
    (withoutFill_live follow).mpr ⟨(wired.ends_live e _ _ onward).2, cached.apart⟩
  refine (isExclusive_joined bare atFront stays (fun same e source joins => ?_) fun i apart => ?_).congr
    (kindsOf_pushed follow _)
  · obtain ⟨joins, away, _⟩ := (wired₁.withoutBlock_joins b e source follow).mp joins
    exact ((cached.enclosed e source joins).resolve_right away).trans same.symm
  · by_cases here : i = b
    · rw [bare.kindsOf_eq_nil fun live => ((withoutFill_live i).mp live).2 here]
      exact .nil
    · rw [Graph.withoutFill, wired₁.kindsOf_withoutBlock here, kindsOf_altered Block.keepsWiring_untested]
      · exact exclusive i
      · intro e' (joins : g.Joins e' i b)
        cases unique e' i joins
        exact apart (joins.unique entry).1

/-- Labels do not decide which way a block goes on. -/
theorem Relabelled.isExclusive (labelled : Relabelled g g') (exclusive : g.IsExclusive) : g'.IsExclusive := by
  intro i
  refine (exclusive i).congr ?_
  have outs : g'.outsOf i = g.outsOf i := by
    have blocks : g'.blocks = g.blocks := by rw [labelled.rest]
    simp only [outsOf, blocks]
  simp only [kindsOf, outs, List.map_filterMap, Option.map_map]
  refine List.filterMap_congr fun e _ => ?_
  have agree := congrArg (Option.map Edge.kind) (labelled.edges e)
  simpa only [Option.map_map, Function.comp_def] using agree

theorem withCases_outsOf {table : CaseTable} (live : g.Live b) {i : BlockId} (other : b ≠ i) :
    (g.withCases b table).outsOf i = g.outsOf i := by
  induction table generalizing g with
  | nil => rfl
  | cons entry rest ih =>
    refine (ih (withEdge_live _ _ _ live)).trans ?_
    rw [withEdge_outsOf g live.lt, if_neg other]

theorem Rereads.isExclusive (rereads : Rereads b g g') (sturdy : Sturdy n g) (exclusive : g.IsExclusive) :
    g'.IsExclusive := by
  cases rereads with
  | same => exact exclusive
  | names run => exact (sturdy.wired.recoverEnumSwitch_some run).isExclusive exclusive
  | strings run =>
    obtain ⟨outs, out, _, _, table, dead, leaving, chosen, _, _, _, live, targets, rfl, unreached⟩ :=
      sturdy.wired.recoverStringSwitch_some (sturdy.lt sturdy.start) run
    have member := List.mem_of_find?_eq_some chosen
    have falls := List.find?_some chosen
    have isCase := EdgeKind.isSwitchCase_of_isFallback falls
    have wired' := sturdy.wired.withCases live targets
    have kinds := sturdy.wired.kindsOf_withCases live targets
    refine (wired'.without _).isExclusive_withoutBlocks (fun i => ?_) fun i => ?_
    · rw [unreached, without_live, withCases_live]
    by_cases here : b = i
    · subst here
      -- a switch has no other way to go on, so all that is left to it are handlers and cases
      refine .of_group .switch (by simp) fun kind listed => ?_
      have listed' := mem_of_kindsOf_without listed
      rw [kinds, if_pos rfl, List.mem_append] at listed'
      rcases listed' with old | new
      · obtain ⟨isSwitch, inKinds⟩ : out.2.kind.group? = some .switch ∧ out.2.kind ∈ g.kindsOf b := by
          refine ⟨?_, ?_⟩
          · cases kind : out.2.kind <;> simp_all [EdgeKind.isSwitchCase, EdgeKind.labels?, EdgeKind.group?]
          · rw [kindsOf_eq_map leaving]
            exact List.mem_map_of_mem member
        cases way : kind.group? with
        | none => exact .inl rfl
        | some way' =>
          rw [(exclusive b).alone kind _ way' .switch old inKinds way isSwitch]
          exact .inr rfl
      · obtain ⟨entry, _, rfl⟩ := List.mem_map.mp new
        exact .inr rfl
    · rw [kindsOf_without, kinds, if_neg here]
      · exact exclusive i
      · intro e leaves gone
        obtain ⟨out', kept, rfl⟩ := List.mem_map.mp gone
        obtain ⟨outs', leaving', joins⟩ := sturdy.wired.leaving live.lt
        cases leaving.ok_unique leaving'
        rw [withCases_outsOf live here] at leaves
        obtain ⟨target, joins'⟩ := (sturdy.wired.mem_outs i _).mp leaves
        exact here ((joins out' (List.mem_filter.mp kept).1).2.unique joins').1

theorem isExclusive_executeOp {plan : Plan} {env : Setting} {o : Operation} (sturdy : Sturdy n g)
    (exclusive : g.IsExclusive) (run : g.executeOp plan env b o = .ok g') : g'.IsExclusive := by
  obtain ⟨block, s, _, _, step⟩ := executeOp_eq_ok run
  have exclusive₁ : (g.scratched b s).IsExclusive := exclusive.congr (kindsOf_altered (Block.keepsWiring_put s) b)
  rcases step with rfl | ⟨_, mid, mid', value, rereads, rereads', _, rfl⟩
  · exact exclusive₁
  · have sturdy₁ := sturdy.scratched (b := b) s
    have exclusive₂ := rereads.isExclusive sturdy₁ exclusive₁
    have exclusive₃ := rereads'.isExclusive (rereads.keeps sturdy₁).1 exclusive₂
    exact exclusive₃.congr (kindsOf_altered (Block.keepsWiring_emit _) b)

theorem Enters.isExclusive (enters : Enters g b g') (exclusive : g.IsExclusive) : g'.IsExclusive := by
  have dropped (rest : List Operation) : (g.altered b (Block.withOps rest)).IsExclusive :=
    exclusive.congr (kindsOf_altered (Block.keepsWiring_withOps rest) b)
  cases enters with
  | same => exact exclusive
  | declared t name _ _ => exact (dropped _).congr (kindsOf_altered (Block.keepsWiring_emit _) b)
  | dropped _ _ => exact dropped _
  | caught name => exact exclusive.congr (kindsOf_pushed b _)

end Graph

namespace Draft

open Unstack.Graph

variable {n : Nat} {plan : Plan} {b : BlockId} {d d' : Draft}

theorem Turn.isExclusive (turn : Turn plan b d d') (sturdy : Sturdy n d.graph) (exclusive : d.graph.IsExclusive) :
    d'.graph.IsExclusive := by
  have dropped (rest : List Operation) : (d.graph.altered b (Block.withOps rest)).IsExclusive :=
    exclusive.congr (kindsOf_altered (Block.keepsWiring_withOps rest) b)
  cases turn with
  | enter enters => exact enters.isExclusive exclusive
  | skip _ _ => exact dropped _
  | execute step => exact isExclusive_executeOp (sturdy.altered (Block.keepsWiring_withOps _)) (dropped _) step.run

theorem Step.isExclusive (step : Step plan d d') (sturdy : Sturdy n d.graph) (exclusive : d.graph.IsExclusive) :
    d'.graph.IsExclusive := by
  cases step with
  | conditional run => exact sturdy.wired.isExclusive_foldConditional exclusive run
  | fuse run => exact sturdy.wired.isExclusive_fuseBranches exclusive run
  | cached run => exact sturdy.wired.isExclusive_foldCachedClass exclusive run
  | turn turn => exact turn.isExclusive sturdy exclusive
  | giveUp _ => exact exclusive.congr (kindsOf_altered Block.keepsWiring_givenUp _)
  | renumber run => exact exclusive.congr (sturdy.wired.searched run).1.kindsOf

/-- By induction on the changes. -/
theorem Steps.isExclusive (steps : Steps plan d d') (sturdy : Sturdy n d.graph) (exclusive : d.graph.IsExclusive) :
    d'.graph.IsExclusive :=
  (steps.keep (fun d => Sturdy n d.graph ∧ d.graph.IsExclusive) ⟨sturdy, exclusive⟩
    fun _ _ kept step => ⟨step.sturdy kept.1, step.isExclusive kept.1 kept.2⟩).2

end Draft

namespace Graph

variable {m : MethodInput} {g built last ready : Graph} {dead : List BlockId} {plan : Plan}

/-- The edges of every block in use can be read, and they exclude each other where they have to. -/
def OneWay (g : Graph) : Prop :=
  ∀ b, g.Live b → ∃ outs, g.outs b = .ok outs ∧ Exclusive (outs.map fun out => out.2.kind)

theorem IsExclusive.oneWay (exclusive : g.IsExclusive) (wired : g.Wired) : g.OneWay := by
  intro b live
  obtain ⟨outs, leaving, _⟩ := wired.leaving live.lt
  exact ⟨outs, leaving, kindsOf_eq_map leaving ▸ exclusive b⟩

theorem kindsOf_countValues (laid : g.Laid m) (b : BlockId) : g.countValues.kindsOf b = g.kindsOf b := by
  rw [countValues_eq laid]
  refine kindsOf_congr ?_ fun _ _ => rfl
  simp only [outsOf, given, Array.getElem?_map]
  cases g.blocks[b]? <;> rfl

theorem Prepares.isExclusive (prepares : Prepares built last ready dead) (ofMethod : built.Built m) :
    ready.IsExclusive := by
  have exclusive (i : BlockId) : Exclusive (last.countValues.kindsOf i) := by
    rw [kindsOf_countValues (prepares.laid ofMethod)]
    exact prepares.analysed.isExclusive ofMethod i
  have reached := prepares.analysed.wired.countValues.1.isExclusive_withoutBlocks prepares.unreached exclusive
  exact reached.congr prepares.renumbered.kindsOf

theorem Built.analyse_oneWay {draft : Draft} (ofMethod : g.Built m) (run : g.analyse plan = .ok draft) :
    draft.graph.OneWay := by
  rcases ofMethod.analyse_eq_ok run with ⟨analysed, _⟩ | ⟨last, ready, dead, outcome, d, prepares, rebuilt, ended⟩
  · exact (analysed.isExclusive ofMethod).oneWay analysed.wired
  · have steps := reconstruct_steps prepares.sturdy rebuilt
    have oneWay := (steps.isExclusive prepares.sturdy (prepares.isExclusive ofMethod)).oneWay
      (steps.sturdy prepares.sturdy).wired
    rcases ended with ⟨e, _, rfl⟩ | ⟨_, regions, notes, rfl⟩ <;> exact oneWay

end Graph

/-- Wherever a method has a graph, every block in use has at most one sequence edge, no edge of a branch or one for
each of its values, and only one way to go on: in the graph as it is built, and in the one that is left after all
analyses, whichever of them ran and whatever they changed. A method whose registers fit comes to that end. -/
theorem MethodInput.decompile_oneWay (input : MethodInput) (plan : Plan) :
    (∀ g, (Graph.ofMethod input).run = .ok (.ok g) → g.OneWay) ∧
    (∀ d g, input.decompile plan = .ok d → d.graph = some g → g.OneWay) ∧
    (input.info.Fits → ∃ d, input.decompile plan = .ok d) := by
  obtain ⟨outcome, run, built⟩ := Graph.ofMethod_yields input
  have whenBuilt (g : Graph) (ran : (Graph.ofMethod input).run = .ok (.ok g)) : g.OneWay := by
    have ofMethod := (Graph.ofMethod_yields input).of_run ran
    exact ofMethod.isExclusive.oneWay ofMethod.wired
  refine ⟨whenBuilt, fun d last ended hasGraph => ?_, fun fits => ?_⟩
  · simp only [decompile, run, ok_bind] at ended
    cases outcome with
    | error e =>
      cases ended
      cases hasGraph
    | ok g =>
      obtain ⟨draft, analysed, same⟩ := bind_eq_ok.mp ended
      cases same
      cases hasGraph
      exact (built g rfl).analyse_oneWay analysed
  · cases outcome with
    | error e => exact ⟨_, by simp only [decompile, run, ok_bind]; rfl⟩
    | ok g =>
      obtain ⟨draft, analysed⟩ := (built g rfl).analyse_total fits plan
      exact ⟨_, decompile_eq run analysed⟩

/-- A branch chooses one of two values, which is dropped. -/
def MethodInput.choice : MethodInput where
  info := MethodInfo.plain "choice" 1 1
  ops := [⟨0, 0, -1, .load .int 0⟩, ⟨0, 0, -1, .jumpZero .int .eq 4⟩, ⟨0, 0, -1, .push .int (.int 1)⟩,
    ⟨0, 0, -1, .goto 5⟩, ⟨0, 0, -1, .push .int (.int 2)⟩, ⟨0, 0, -1, .pop .pop⟩, ⟨0, 0, -1, .leave .void⟩]
  exceptions := []

/-- The branch and its arms are folded into one block. -/
theorem MethodInput.decompile_oneWay_choice : ∃ d g, choice.decompile ⟨.none, {}⟩ = .ok d ∧ d.graph = some g ∧
    g.liveCount = 1 ∧ g.OneWay := by
  have folded : (choice.decompile ⟨.none, {}⟩).toOption.any fun d =>
      d.graph.any fun g => g.liveCount = 1 := by decide +kernel
  obtain ⟨_, oneWay, ends⟩ := decompile_oneWay choice ⟨.none, {}⟩
  obtain ⟨d, run⟩ := ends (by decide)
  rw [run] at folded
  have folded : d.graph.any (fun g => g.liveCount = 1) := folded
  cases atGraph : d.graph with
  | none => simp [atGraph] at folded
  | some g =>
    rw [atGraph, Option.any_some] at folded
    exact ⟨d, g, run, atGraph, of_decide_eq_true folded, oneWay d g run atGraph⟩

end Unstack
