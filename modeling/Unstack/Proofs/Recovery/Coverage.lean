import Unstack.Proofs.Recovery.Conditional

namespace Unstack

namespace Graph

variable {g g' g'' : Graph} {b : BlockId} {handler : BlockId} {types : List (Option JavaType)}

/-- The edge leads from the block to a handler of the types. -/
def Handles (g : Graph) (e : EdgeId) (b handler : BlockId) (types : List (Option JavaType)) : Prop :=
  g.Joins e b handler ∧ g.edges[e]?.map Edge.kind = some (.handler types)

/-- The types are among those that one edge of the block hands to the handler. -/
def Covers (g : Graph) (b handler : BlockId) (types : List (Option JavaType)) : Prop :=
  ∃ e caught, g.Handles e b handler caught ∧ types ⊆ caught

theorem Wired.withoutBlock_handles (wired : g.Wired) {e : EdgeId} {i : BlockId} :
    (g.withoutBlock b).Handles e i handler types ↔ g.Handles e i handler types ∧ i ≠ b ∧ handler ≠ b := by
  have kind : (g.withoutBlock b).edges[e]?.map Edge.kind = g.edges[e]?.map Edge.kind := by
    change ((g.without _).edges[e]?).map Edge.kind = _
    rw [without_edge, Option.map_map]
    rfl
  rw [Handles, Handles, kind, wired.withoutBlock_joins]
  tauto

/-- The blocks in use have the handlers that they had, which may have got other names. -/
def KeepsHandlers (g g' : Graph) (rename : BlockId → BlockId) : Prop :=
  ∀ i, g'.Live i → g.Live i ∧ ∀ e handler types,
    g'.Handles e i handler types ↔ ∃ old, g.Handles e i old types ∧ rename old = handler

namespace KeepsHandlers

variable {rename rename' : BlockId → BlockId}

theorem trans (first : g.KeepsHandlers g' rename) (second : g'.KeepsHandlers g'' rename') :
    g.KeepsHandlers g'' (rename' ∘ rename) := by
  intro i live
  obtain ⟨live', after⟩ := second i live
  obtain ⟨live'', before⟩ := first i live'
  refine ⟨live'', fun e handler types => ?_⟩
  rw [after]
  simp only [before, Function.comp_apply]
  constructor
  · rintro ⟨_, ⟨old, handles, rfl⟩, rfl⟩
    exact ⟨old, handles, rfl⟩
  · rintro ⟨old, handles, rfl⟩
    exact ⟨_, ⟨old, handles, rfl⟩, rfl⟩

theorem of_same (live : ∀ i, g'.Live i → g.Live i)
    (same : ∀ i e handler types, g'.Live i → (g'.Handles e i handler types ↔ g.Handles e i handler types)) :
    g.KeepsHandlers g' id :=
  fun i inUse => ⟨live i inUse, fun e handler types => by simp [same i e handler types inUse]⟩

theorem congr (keeps : g.KeepsHandlers g' rename)
    (same : ∀ i e handler types, g.Handles e i handler types → rename handler = rename' handler) :
    g.KeepsHandlers g' rename' := by
  intro i live
  obtain ⟨live', all⟩ := keeps i live
  refine ⟨live', fun e handler types => ?_⟩
  rw [all]
  constructor
  · rintro ⟨old, handles, rfl⟩
    exact ⟨old, handles, (same i e old types handles).symm⟩
  · rintro ⟨old, handles, rfl⟩
    exact ⟨old, handles, same i e old types handles⟩

/-- A block that stays is covered by the handlers it had. -/
theorem covers (keeps : g.KeepsHandlers g' rename) {i : BlockId} (live : g'.Live i) :
    g'.Covers i handler types ↔ ∃ old, g.Covers i old types ∧ rename old = handler := by
  obtain ⟨_, all⟩ := keeps i live
  constructor
  · rintro ⟨e, caught, handles, wide⟩
    obtain ⟨old, before, renamed⟩ := (all e handler caught).mp handles
    exact ⟨old, ⟨e, caught, before, wide⟩, renamed⟩
  · rintro ⟨old, ⟨e, caught, before, wide⟩, renamed⟩
    exact ⟨e, caught, (all e handler caught).mpr ⟨old, before, renamed⟩, wide⟩

theorem altered {change : Block → Block} (keeps : KeepsWiring change) (b : BlockId) :
    g.KeepsHandlers (g.altered b change) id :=
  of_same (fun i => (altered_live keeps i).mp) fun _ _ _ _ _ => .rfl

theorem pushed (b : BlockId) (expr : Expr) : g.KeepsHandlers (g.pushed b expr) id :=
  of_same (fun i => (pushed_live b expr i).mp) fun _ _ _ _ _ => .rfl

theorem withoutBlock (wired : g.Wired) (none : ∀ e i types, ¬ g.Handles e i b types) :
    g.KeepsHandlers (g.withoutBlock b) id := by
  refine of_same (fun i live => ((withoutBlock_live b i).mp live).1) fun i e handler types live => ?_
  rw [wired.withoutBlock_handles]
  refine ⟨And.left, fun handles => ⟨handles, ((withoutBlock_live b i).mp live).2, ?_⟩⟩
  rintro rfl
  exact none e i types handles

theorem withEdge (source target : BlockId) : g.KeepsHandlers (g.withEdge source target .sequence) id := by
  refine of_same (fun i => (withEdge_live_iff i).mp) fun i e handler types _ => ?_
  rw [Handles, Handles, withEdge_edge, withEdge_joins]
  by_cases last : e = g.edges.size
  · subst last
    simp
  · simp [last]

theorem joined (wired : g.Wired) {pred : BlockId} {front : Block} (found : g.blocks[pred]? = some front)
    (live : g.Live b) (closed : b = pred → ∀ e source, g.Joins e source b → source = b) :
    g.KeepsHandlers (g.joined b pred front) (afterJoin b pred) := by
  intro i inUse
  obtain ⟨before, other⟩ := (joined_live ..).mp inUse
  have kind {e : EdgeId} {old : BlockId} (joins : g.Joins e i old) :
      (g.joined b pred front).edges[e]?.map Edge.kind = g.edges[e]?.map Edge.kind := by
    obtain ⟨edge, atEdge, used, source, rfl⟩ := joins
    rw [wired.joined_edge found live closed ⟨edge, atEdge, used, source, rfl⟩ atEdge other, atEdge]
    rfl
  refine ⟨before, fun e handler types => ?_⟩
  rw [Handles, wired.joined_joins found live closed]
  constructor
  · rintro ⟨⟨_, old, joins, rfl⟩, handles⟩
    exact ⟨old, ⟨joins, kind joins ▸ handles⟩, rfl⟩
  · rintro ⟨old, ⟨joins, handles⟩, rfl⟩
    exact ⟨⟨other, old, joins, rfl⟩, (kind joins).trans handles⟩

end KeepsHandlers

section Folds

variable {head pred follow whenTrue whenFalse : BlockId} {front block : Block} {cond first second : Expr}
  {yes no : StackValue} {name : String}

/-- An edge of a branch leads to no handler. -/
theorem not_handles_of_once {e : EdgeId} {edge : Edge} (atEdge : g.edges[e]? = some edge) (branch : edge.kind.isHandler = false)
    (once : ∀ e' source, g.Joins e' source b → e' = e) (e' : EdgeId) (i : BlockId) (types : List (Option JavaType)) :
    ¬ g.Handles e' i b types := by
  rintro ⟨joins, handles⟩
  cases once e' i joins
  rw [atEdge, Option.map_some, Option.some.injEq] at handles
  rw [handles] at branch
  cases branch

theorem Diamond.not_handles (diamond : g.Diamond b head front cond whenTrue whenFalse yes no) (e : EdgeId) (i : BlockId)
    (types : List (Option JavaType)) : ¬ g.Handles e i whenTrue types ∧ ¬ g.Handles e i whenFalse types := by
  obtain ⟨eTrue, edgeTrue, atTrue, isTrue, joinsTrue⟩ := diamond.branches.yes
  obtain ⟨eFalse, edgeFalse, atFalse, isFalse, joinsFalse⟩ := diamond.branches.no
  constructor
  · exact not_handles_of_once atTrue (by rw [isTrue]; rfl)
      (fun e' source joins => diamond.yes.once e' eTrue source head joins joinsTrue) e i types
  · exact not_handles_of_once atFalse (by rw [isFalse]; rfl)
      (fun e' source joins => diamond.no.once e' eFalse source head joins joinsFalse) e i types

/-- An arm is no handler, so none is lost with it. -/
theorem Diamond.keepsHandlers (wired : g.Wired) (diamond : g.Diamond b head front cond whenTrue whenFalse yes no) :
    g.KeepsHandlers (g.withoutArms head whenTrue whenFalse) id := by
  have wired₁ := altered_wired wired head Block.keepsWiring_unbranched
  have first := KeepsHandlers.altered (g := g) Block.keepsWiring_unbranched head
  have second : (g.altered head Block.unbranched).KeepsHandlers ((g.altered head Block.unbranched).withoutBlock whenTrue) id :=
    .withoutBlock wired₁ fun e i types => (diamond.not_handles e i types).1
  have third : ((g.altered head Block.unbranched).withoutBlock whenTrue).KeepsHandlers
      (g.withoutArms head whenTrue whenFalse) id :=
    .withoutBlock (wired₁.withoutBlock whenTrue) fun e i types handles =>
      (diamond.not_handles e i types).2 (wired₁.withoutBlock_handles.mp handles).1
  exact (first.trans second).trans third

/-- A fold leaves its result to `heir`, and every block that stays has the handlers that it had. A handler that is
taken out has become a part of `heir`. -/
structure Inherits (g g' : Graph) (heir gone : BlockId) : Prop where
  survives : heir ≠ gone → g'.Live heir
  unused : ¬ g'.Live gone
  others (i : BlockId) : g'.Live i → i ≠ heir → g'.contentOf i = g.contentOf i
  handlers : g.KeepsHandlers g' (afterJoin heir gone)

theorem Inherits.joined {bare : Graph} {heir gone : BlockId} (wired : bare.Wired)
    (atFront : bare.blocks[gone]? = some front) (stays : bare.Live heir)
    (closed : heir = gone → ∀ e source, bare.Joins e source heir → source = heir) (keeps : g.KeepsHandlers bare id)
    (others : ∀ i, i ≠ heir → i ≠ gone → bare.contentOf i = g.contentOf i) :
    g.Inherits (bare.joined heir gone front) heir gone where
  survives apart := (joined_live ..).mpr ⟨stays, apart⟩
  unused live := ((joined_live ..).mp live).2 rfl
  others i live other := by
    have notGone := ((joined_live ..).mp live).2
    rw [contentOf_joined_of_ne _ _ notGone, if_neg (Ne.symm other), others i other notGone]
  handlers := keeps.trans (.joined wired atFront stays closed)

theorem Inherits.pushed {heir gone : BlockId} (inherits : g.Inherits g' heir gone) (expr : Expr) :
    g.Inherits (g'.pushed heir expr) heir gone where
  survives apart := (pushed_live ..).mpr (inherits.survives apart)
  unused live := inherits.unused ((pushed_live ..).mp live)
  others i live other := by
    rw [contentOf_pushed, if_neg (Ne.symm other), inherits.others i ((pushed_live ..).mp live) other]
  handlers := inherits.handlers.trans (.pushed heir expr)

theorem Wired.inherits_foldConditional (wired : g.Wired) (exclusive : g.IsExclusive)
    (run : g.foldConditional b = .ok (some g')) : ∃ heir gone, g.Inherits g' heir gone := by
  obtain ⟨head, front, cond, whenTrue, whenFalse, yes, no, diamond, folding⟩ := wired.foldConditional_some run
  have bare := wired.withoutArms head whenTrue whenFalse
  obtain ⟨stays, headStays⟩ := diamond.stay wired
  have first := diamond.keepsHandlers wired
  rcases diamond.foldArms_some wired folding with ⟨entered, front', atFront, folded⟩ | ⟨e, setting⟩
  · have closed : b = head → ∀ e source, (g.withoutArms head whenTrue whenFalse).Joins e source b → source = b := by
      intro _ e source joins
      have entry := (bare.mem_ins b e).mpr ⟨source, joins⟩
      rw [entered] at entry
      cases entry
    subst folded
    refine ⟨b, head, .pushed (.joined bare atFront stays closed first fun i _ notHead => ?_) _⟩
    rw [contentOf_withoutArms, if_neg (Ne.symm notHead)]
  · obtain ⟨folded, _⟩ := diamond.setSucc_eq wired exclusive setting
    subst folded
    refine ⟨head, whenTrue, ?_, ?_, ?_, ?_⟩
    · exact fun _ => (withEdge_live_iff head).mpr ((pushed_live ..).mpr headStays)
    · exact fun live => ((withoutArms_live _).mp ((pushed_live ..).mp ((withEdge_live_iff _).mp live))).2.1 rfl
    · intro i _ other
      rw [contentOf_withEdge, contentOf_pushed, if_neg (Ne.symm other), contentOf_withoutArms, if_neg (Ne.symm other)]
    · refine ((first.trans (.pushed head _)).trans (.withEdge head b)).congr fun i e handler types handles => ?_
      refine (if_neg ?_).symm
      rintro rfl
      exact (diamond.not_handles e i types).1 handles

theorem Wired.inherits_fuseBranches (wired : g.Wired) (run : g.fuseBranches b = .ok (some g')) :
    ∃ heir gone, g.Inherits g' heir gone := by
  obtain ⟨pred, front, block, first, second, cond, front', fusion, atFront, rfl⟩ := wired.fuseBranches_some run
  obtain ⟨_, _, _, _, _, branches, _⟩ := fusion.front
  have bare := wired.withFused b pred cond
  have live : (g.withFused b pred cond).Live b := (withFused_live b).mpr (branches.live wired)
  have altered := KeepsHandlers.altered (g := g) (Block.keepsWiring_recond cond) pred
  have altered' := altered.trans (.altered Block.keepsWiring_beheaded b)
  refine ⟨b, pred, .joined bare atFront live (fun same => absurd same.symm fusion.apart) altered' ?_⟩
  intro i other notPred
  rw [contentOf, Graph.withFused, altered_block, if_neg (Ne.symm other), altered_block, if_neg (Ne.symm notPred), contentOf]

theorem Wired.inherits_foldCachedClass (wired : g.Wired) (run : g.foldCachedClass b = .ok (some g')) :
    ∃ heir gone, g.Inherits g' heir gone := by
  obtain ⟨head, follow, front, name, t, front', cached, atFront, rfl⟩ := wired.foldCachedClass_some run
  obtain ⟨_, _, _, _, onward⟩ := cached.onward
  obtain ⟨_, _, unique⟩ := wired.only_entry cached.only
  have wired₁ := altered_wired wired head Block.keepsWiring_untested
  have bare := wired.withoutFill b head
  have stays : (g.withoutFill b head).Live follow :=
    (withoutFill_live follow).mpr ⟨(wired.ends_live _ _ _ onward).2, cached.apart⟩
  have closed : follow = head → ∀ e source, (g.withoutFill b head).Joins e source follow → source = follow := by
    intro same e source joins
    obtain ⟨joins, away, _⟩ := (wired₁.withoutBlock_joins b e source follow).mp joins
    exact ((cached.enclosed e source joins).resolve_right away).trans same.symm
  -- the only edge to `b` comes from the branch
  have noHandler (e : EdgeId) (i : BlockId) (types : List (Option JavaType)) : ¬ g.Handles e i b types := by
    obtain ⟨cond, whenTrue, whenFalse, branches, ⟨rfl, _⟩ | ⟨rfl, _⟩⟩ := cached.branches
    · obtain ⟨eFalse, edge, atEdge, isFalse, joins⟩ := branches.no
      have once (e' : EdgeId) (source : BlockId) (joins' : g.Joins e' source whenFalse) : e' = eFalse :=
        (unique e' source joins').trans (unique eFalse head joins).symm
      exact not_handles_of_once atEdge (by rw [isFalse]; rfl) once e i types
    · obtain ⟨eTrue, edge, atEdge, isTrue, joins⟩ := branches.yes
      have once (e' : EdgeId) (source : BlockId) (joins' : g.Joins e' source whenTrue) : e' = eTrue :=
        (unique e' source joins').trans (unique eTrue head joins).symm
      exact not_handles_of_once atEdge (by rw [isTrue]; rfl) once e i types
  have altered := KeepsHandlers.altered (g := g) Block.keepsWiring_untested head
  have filled : g.KeepsHandlers (g.withoutFill b head) id := altered.trans (.withoutBlock wired₁ noHandler)
  refine ⟨follow, head, .pushed (.joined bare atFront stays closed filled fun i _ notHead => ?_) _⟩
  rw [Graph.withoutFill, contentOf_withoutBlock, contentOf, altered_block, if_neg (Ne.symm notHead), contentOf]

end Folds

/-- A fold leaves every block that stays exactly the handlers that it had. So a handler of a block that is taken out
remains one of the block that takes over its expressions exactly if it was one before. -/
theorem folds_keep_own_handlers {m : MethodInput} {plan : Plan} {d : Draft} (arises : d.Arises m plan)
    (run : d.graph.foldConditional b = .ok (some g') ∨ d.graph.fuseBranches b = .ok (some g') ∨
      d.graph.foldCachedClass b = .ok (some g')) :
    ∃ heir gone, (heir ≠ gone → g'.Live heir) ∧ ¬ g'.Live gone ∧
      (∀ i, g'.Live i → i ≠ heir → g'.contentOf i = d.graph.contentOf i) ∧
      (∀ i, g'.Live i → ∀ handler types, g'.Covers i handler types ↔
        ∃ old, d.graph.Covers i old types ∧ afterJoin heir gone old = handler) ∧
      ∀ removed handler types, d.graph.Live removed → ¬ g'.Live removed → d.graph.Covers removed handler types →
        heir ≠ gone → (g'.Covers heir (afterJoin heir gone handler) types ↔
          ∃ old, d.graph.Covers heir old types ∧ afterJoin heir gone old = afterJoin heir gone handler) := by
  obtain ⟨n, sturdy, exclusive, _⟩ := arises.sound
  obtain ⟨heir, gone, inherits⟩ : ∃ heir gone, d.graph.Inherits g' heir gone := by
    rcases run with run | run | run
    · exact sturdy.wired.inherits_foldConditional exclusive run
    · exact sturdy.wired.inherits_fuseBranches run
    · exact sturdy.wired.inherits_foldCachedClass run
  refine ⟨heir, gone, inherits.survives, inherits.unused, inherits.others,
    fun i live handler types => inherits.handlers.covers live, ?_⟩
  intro removed handler types _ _ _ apart
  exact inherits.handlers.covers (inherits.survives apart)

def handles (outs : List (EdgeId × Edge)) (handler : BlockId) (types : List (Option JavaType)) : Bool :=
  outs.any fun out => out.2.kind = .handler types ∧ out.2.target = handler

theorem Wired.covers_of_outs (wired : g.Wired)
    (listed : (g.outs b).toOption.any fun outs => handles outs handler types) : g.Covers b handler types := by
  obtain ⟨outs, run, listed⟩ := of_any_toOption listed
  obtain ⟨_, found, _⟩ := bind_eq_ok.mp run
  obtain ⟨_, run', leaving⟩ := wired.leaving (lt_of_block found)
  cases run.ok_unique run'
  obtain ⟨out, member, shaped⟩ := List.any_eq_true.mp listed
  obtain ⟨isHandler, rfl⟩ := of_decide_eq_true shaped
  obtain ⟨atEdge, joins⟩ := leaving out member
  exact ⟨out.1, types, ⟨joins, by rw [atEdge, Option.map_some, isHandler]⟩, fun _ => id⟩

theorem Wired.mem_kindsOf_of_covers (wired : g.Wired) (covers : g.Covers b handler types) :
    ∃ caught, .handler caught ∈ g.kindsOf b := by
  obtain ⟨e, caught, ⟨joins, isHandler⟩, _⟩ := covers
  obtain ⟨edge, atEdge, isHandler⟩ := Option.map_eq_some_iff.mp isHandler
  exact ⟨caught, wired.mem_kindsOf.mpr ⟨e, edge, handler, atEdge, isHandler, joins⟩⟩

end Graph

/-- Two conditions lead to the same block. Everything is caught in the operations before `stop`. -/
def MethodInput.guardedTests (stop : Nat) : MethodInput where
  info := MethodInfo.plain "guardedTests" 3 1
  ops := [⟨0, 0, -1, .load .int 0⟩, ⟨0, 0, -1, .jumpZero .int .eq 5⟩, ⟨0, 0, -1, .load .int 1⟩,
    ⟨0, 0, -1, .jumpZero .int .eq 5⟩, ⟨0, 0, -1, .leave .void⟩, ⟨0, 0, -1, .leave .void⟩,
    ⟨0, 0, -1, .store (.object "java.lang.Throwable") 2⟩, ⟨0, 0, -1, .leave .void⟩]
  exceptions := [⟨0, stop, 6, none⟩]

/-- The second condition is fused with the first one, which had a handler. -/
theorem MethodInput.guardedTests_fused (stop : Nat) (holds : Graph → Graph → Bool)
    (shaped : ((guardedTests stop).converted? ⟨.none, {}⟩ [0, 1]).any fun d =>
      ((d.graph.outs 0).toOption.any fun outs => Graph.handles outs 4 [none]) ∧
      (d.graph.fuseBranches 1).toOption.any fun fused => fused.any fun g' =>
        g'.live.map Prod.fst = [1, 2, 3, 4] ∧ holds d.graph g') :
    ∃ (d : Draft) (g' : Graph), d.Arises (guardedTests stop) ⟨.none, {}⟩ ∧ d.graph.fuseBranches 1 = .ok (some g') ∧
      d.graph.Covers 0 4 [none] ∧ (∀ i, g'.Live i ↔ i ∈ [1, 2, 3, 4]) ∧ holds d.graph g' := by
  obtain ⟨d, given, shaped⟩ := (Option.any_eq_true _ _).mp shaped
  obtain ⟨covered, folds⟩ := of_decide_eq_true shaped
  obtain ⟨_ | g', run, shaped⟩ := of_any_toOption folds
  · cases shaped
  obtain ⟨inUse, more⟩ := of_decide_eq_true shaped
  have arises := arises_of_converted? given
  obtain ⟨n, sturdy, _⟩ := arises.sound
  refine ⟨d, g', arises, run, sturdy.wired.covers_of_outs covered, fun i => ?_, more⟩
  rw [← inUse, Graph.mem_live_map]

namespace Graph

/-- Both conditions have the handler, and so has the one that takes their place. -/
theorem folds_keep_own_handlers_guardedTests : ∃ (d : Draft) (g' : Graph), d.Arises (.guardedTests 4) ⟨.none, {}⟩ ∧
    d.graph.fuseBranches 1 = .ok (some g') ∧ d.graph.Covers 0 4 [none] ∧ ¬ g'.Live 0 ∧ g'.Live 1 ∧
    g'.Covers 1 4 [none] := by
  obtain ⟨d, g', arises, run, covers, live, covered⟩ := MethodInput.guardedTests_fused 4
    (fun g _ => (g.outs 1).toOption.any fun outs => handles outs 4 [none]) (by decide +kernel)
  obtain ⟨n, sturdy, _⟩ := arises.sound
  obtain ⟨heir, gone, _, unused, _, each, _⟩ := folds_keep_own_handlers arises (.inr (.inl run))
  have stays : afterJoin heir gone 4 = 4 := by
    refine if_neg ?_
    rintro rfl
    exact unused ((live 4).mpr (by decide))
  have inUse : g'.Live 1 := (live 1).mpr (by decide)
  refine ⟨d, g', arises, run, covers, fun used => absurd ((live 0).mp used) (by decide), inUse, ?_⟩
  exact (each 1 inUse 4 [none]).mpr ⟨4, sturdy.wired.covers_of_outs covered, stays⟩

/-- Only the first condition has a handler, and it is lost. -/
theorem fuseBranches_loses_handler : ∃ (d : Draft) (g' : Graph), d.Arises (.guardedTests 2) ⟨.none, {}⟩ ∧
    d.graph.fuseBranches 1 = .ok (some g') ∧ d.graph.Covers 0 4 [none] ∧ ¬ g'.Live 0 ∧ g'.Live 1 ∧
    ∀ handler types, ¬ g'.Covers 1 handler types := by
  obtain ⟨d, g', arises, run, covers, live, bare⟩ := MethodInput.guardedTests_fused 2
    (fun _ g' => (g'.kindsOf 1).all fun kind => !kind.isHandler) (by decide +kernel)
  obtain ⟨n, sturdy, _⟩ := arises.sound
  have step : Draft.Step ⟨.none, {}⟩ d { d with graph := g' } := .fuse run
  refine ⟨d, g', arises, run, covers, fun used => absurd ((live 0).mp used) (by decide), (live 1).mpr (by decide), ?_⟩
  intro handler types covered
  obtain ⟨caught, member⟩ := (step.sturdy sturdy).wired.mem_kindsOf_of_covers covered
  cases List.all_eq_true.mp bare _ member

end Graph

end Unstack
