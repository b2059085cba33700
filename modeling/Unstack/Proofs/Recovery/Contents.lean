import Unstack.Proofs.Recovery.Emit
import Unstack.Proofs.Recovery.Prepared

namespace Unstack

namespace Content

variable {c front : Content} {o : Operation} {rest : List Operation}

/-- Only the last operation may be a jump, and a branch stands only at the end, when no operation is left. -/
structure Orderly (c : Content) : Prop where
  inner : ∀ o ∈ c.ops.dropLast, o.instr.isJump = false
  stmts : (∀ stmt ∈ c.stmts, stmt.isBranch = false) ∨
    c.ops = [] ∧ ∀ stmt ∈ c.stmts.dropLast, stmt.isBranch = false

namespace Orderly

theorem of_branch {cond : Expr} (orderly : c.Orderly) (ends : c.stmts.getLast? = some (.branch cond)) :
    c.ops = [] ∧ ∀ stmt ∈ c.stmts.dropLast, stmt.isBranch = false := by
  rcases orderly.stmts with plain | done
  · cases plain _ (List.mem_of_getLast? ends)
  · exact done

theorem plain (orderly : c.Orderly) (ops : c.ops = o :: rest) : ∀ stmt ∈ c.stmts, stmt.isBranch = false :=
  orderly.stmts.resolve_right fun done => by
    rw [ops] at done
    cases done.1

theorem before (orderly : c.Orderly) (done : front.ops = []) (plain : ∀ stmt ∈ front.stmts, stmt.isBranch = false) :
    (front.before c).Orderly := by
  have ops : (front.before c).ops = c.ops := by simp [Content.before, done]
  refine ⟨ops ▸ orderly.inner, ?_⟩
  rcases orderly.stmts with plain' | ⟨done', plain'⟩
  · exact .inl fun stmt member => (List.mem_append.mp member).elim (plain stmt) (plain' stmt)
  · refine .inr ⟨ops.trans done', fun stmt member => ?_⟩
    by_cases none : c.stmts = []
    · have early : stmt ∈ (front.stmts ++ c.stmts).dropLast := member
      rw [none, List.append_nil] at early
      exact plain stmt (List.mem_of_mem_dropLast early)
    · have either : stmt ∈ (front.stmts ++ c.stmts).dropLast := member
      rw [List.dropLast_append_of_ne_nil none] at either
      exact (List.mem_append.mp either).elim (plain stmt) (plain' stmt)

theorem advance {c' : Content} (orderly : c.Orderly) (ops : c.ops = o :: rest) (left : c'.ops = rest)
    (stmts : (∀ stmt ∈ c'.stmts, stmt.isBranch = false) ∨
      rest = [] ∧ ∀ stmt ∈ c'.stmts.dropLast, stmt.isBranch = false) : c'.Orderly := by
  refine ⟨fun o' member => ?_, left ▸ stmts⟩
  refine orderly.inner o' ?_
  rw [left] at member
  rw [ops]
  cases rest with
  | nil => cases member
  | cons next later => exact .tail _ member

end Orderly

def recond (cond : Expr) (c : Content) : Content := { c with stmts := Graph.changeCond cond c.stmts }

def untested (c : Content) : Content := { c with stack := c.stack.tail, stmts := c.stmts.dropLast }

/-- A property of what single blocks hold that every fold keeps. -/
structure Foldable (holds : BlockId → Content → Prop) : Prop where
  push {i : BlockId} {c : Content} (value : StackValue) : holds i c → holds i (c.push value)
  unbranched {i : BlockId} {c : Content} {cond : Expr} : holds i c → c.stmts.getLast? = some (.branch cond) →
    holds i c.unbranched
  join {i j : BlockId} {c front : Content} {cond : Expr} : holds i c → holds j front →
    front.stmts.getLast? = some (.branch cond) → holds i (front.unbranched.before c)
  joinTested {i j : BlockId} {c front : Content} {cond : Expr} : holds i c → holds j front →
    front.stmts.getLast? = some (.branch cond) → holds i (front.untested.before c)
  fuse {i j : BlockId} {c front : Content} {first second : Expr} (cond : Expr) : holds i c → holds j front →
    front.stmts.getLast? = some (.branch first) → c.stmts = [.branch second] →
    holds i ((front.recond cond).before { c with stmts := [] })

theorem Orderly.foldable : Foldable fun _ => Orderly where
  push _ orderly := ⟨orderly.inner, orderly.stmts⟩
  unbranched orderly ends := ⟨orderly.inner, .inl (orderly.of_branch ends).2⟩
  join orderly atFront ends := orderly.before (atFront.of_branch ends).1 (atFront.of_branch ends).2
  joinTested orderly atFront ends := orderly.before (atFront.of_branch ends).1 (atFront.of_branch ends).2
  fuse {_ _ c front _ second} cond orderly atFront ends single := by
    obtain ⟨done, plain⟩ := atFront.of_branch ends
    have ends' : c.stmts.getLast? = some (.branch second) := by rw [single]; rfl
    have done' : c.ops = [] := (orderly.of_branch ends').1
    have ops : front.ops ++ c.ops = [] := by rw [done, done', List.append_nil]
    have stmts : Graph.changeCond cond front.stmts = front.stmts.dropLast ++ [.branch cond] := by
      simp only [Graph.changeCond, ends]
    refine ⟨?_, .inr ⟨ops, ?_⟩⟩
    · change ∀ o ∈ (front.ops ++ c.ops).dropLast, _
      rw [ops]
      intro o member
      cases member
    · change ∀ stmt ∈ (Graph.changeCond cond front.stmts ++ []).dropLast, _
      rw [stmts, List.append_nil, List.dropLast_concat]
      exact plain

end Content

namespace Graph

variable {g g' : Graph} {b : BlockId} {holds : BlockId → Content → Prop}

/-- All blocks in use hold what has the property. -/
def Everywhere (g : Graph) (holds : BlockId → Content → Prop) : Prop :=
  ∀ (i : BlockId) (c : Content), g.Live i → g.contentOf i = some c → holds i c

namespace Everywhere

theorem congr (all : g.Everywhere holds) (live : ∀ i, g'.Live i → g.Live i)
    (content : ∀ i, g'.contentOf i = g.contentOf i) : g'.Everywhere holds :=
  fun i c used found => all i c (live i used) (content i ▸ found)

theorem altered (all : g.Everywhere holds) {change : Block → Block} (keeps : KeepsWiring change)
    (here : ∀ block, g.blocks[b]? = some block → holds b block.content → holds b (change block).content) :
    (g.altered b change).Everywhere holds := by
  intro i c live found
  have live' := (altered_live keeps i).mp live
  rw [contentOf, altered_block] at found
  split at found
  · rename_i same
    subst same
    obtain ⟨_, atChanged, rfl⟩ := Option.map_eq_some_iff.mp found
    obtain ⟨block, atBlock, rfl⟩ := Option.map_eq_some_iff.mp atChanged
    exact here block atBlock (all b block.content live' (contentOf_eq atBlock))
  · exact all i c live' found

theorem pushed (foldable : Content.Foldable holds) (all : g.Everywhere holds) (b : BlockId) (expr : Expr) :
    (g.pushed b expr).Everywhere holds := by
  intro i c live found
  have live' := (pushed_live b expr i).mp live
  rw [contentOf_pushed] at found
  split at found
  · obtain ⟨old, found', rfl⟩ := Option.map_eq_some_iff.mp found
    exact foldable.push _ (all i old live' found')
  · exact all i c live' found

/-- Joining two blocks concerns no block but these. -/
theorem joined {pred : BlockId} {front : Block}
    (others : ∀ i, i ≠ pred → i ≠ b → ∀ c, g.Live i → g.contentOf i = some c → holds i c)
    (atBlock : b ≠ pred → ∀ c, g.Live b → g.contentOf b = some c → holds b (front.content.before c)) :
    (g.joined b pred front).Everywhere holds := by
  intro i c live found
  obtain ⟨live', other⟩ := (joined_live b pred front i).mp live
  rw [contentOf_joined_of_ne b front other] at found
  split at found
  · rename_i here
    subst here
    obtain ⟨old, found', rfl⟩ := Option.map_eq_some_iff.mp found
    exact atBlock other old live' found'
  · rename_i away
    exact others i other (Ne.symm away) c live' found

variable (foldable : Content.Foldable holds) (all : g.Everywhere holds) (wired : g.Wired)

include all in
theorem branches {block : Block} {cond : Expr} {whenTrue whenFalse : BlockId} (wired : g.Wired)
    (ends : g.Branches b block cond whenTrue whenFalse) : holds b block.content :=
  all b block.content (ends.live wired) (contentOf_eq ends.found)

include foldable all wired

theorem foldConditional (run : g.foldConditional b = .ok (some g')) : g'.Everywhere holds := by
  obtain ⟨head, front, cond, whenTrue, whenFalse, yes, no, diamond, folding⟩ := wired.foldConditional_some run
  have atHead : (g.withoutArms head whenTrue whenFalse).contentOf head = some front.content.unbranched := by
    rw [contentOf_withoutArms, if_pos rfl, contentOf_eq diamond.branches.found]
    rfl
  have others (i : BlockId) (other : i ≠ head) (c : Content) (live : (g.withoutArms head whenTrue whenFalse).Live i)
      (found : (g.withoutArms head whenTrue whenFalse).contentOf i = some c) : holds i c := by
    rw [contentOf_withoutArms, if_neg (Ne.symm other)] at found
    exact all i c ((withoutArms_live i).mp live).1 found
  have ofHead := all.branches wired diamond.branches
  rcases diamond.folded wired folding with ⟨front', atFront, rfl⟩ | ⟨stale, rfl⟩
  · rw [contentOf_eq atFront, Option.some.injEq] at atHead
    refine pushed foldable (joined (fun i other _ => others i other) fun apart c live found => ?_) b _
    rw [atHead]
    exact foldable.join (others b apart c live found) ofHead diamond.branches.ends
  · have bare : (g.withoutArms head whenTrue whenFalse).Everywhere holds := by
      intro i c live found
      by_cases here : i = head
      · subst here
        rw [atHead, Option.some.injEq] at found
        exact found ▸ foldable.unbranched ofHead diamond.branches.ends
      · exact others i here c live found
    refine (pushed foldable bare head (cond.ofArms yes.expr no.expr)).congr (fun i => ?_) fun i => ?_
    · rw [without_live, withEdge_live_iff]
      exact id
    · rw [contentOf_without, contentOf_withEdge]

theorem fuseBranches (run : g.fuseBranches b = .ok (some g')) : g'.Everywhere holds := by
  obtain ⟨pred, front, block, first, second, cond, front', fusion, atFront, rfl⟩ := wired.fuseBranches_some run
  obtain ⟨firstTrue, firstFalse, branches, whenTrue, whenFalse, branches', _⟩ := fusion.front
  have changed (j : BlockId) : (g.withFused b pred cond).blocks[j]? = if b = j then
      (if pred = j then g.blocks[j]?.map (Block.recond cond) else g.blocks[j]?).map Block.beheaded else
      if pred = j then g.blocks[j]?.map (Block.recond cond) else g.blocks[j]? := by
    rw [Graph.withFused, altered_block, altered_block]
  refine joined (fun i other away c live found => ?_) fun apart c live found => ?_
  · rw [contentOf, changed, if_neg (Ne.symm away), if_neg (Ne.symm other)] at found
    exact all i c ((withFused_live i).mp live) found
  · rw [changed, if_neg (Ne.symm fusion.apart), if_pos rfl, branches.found] at atFront
    cases Option.some.inj atFront
    rw [contentOf, changed, if_pos rfl, if_neg fusion.apart, branches'.found] at found
    cases Option.some.inj found
    have plain : block.beheaded.content = { block.content with stmts := [] } := by
      simp [Block.content, Block.beheaded, fusion.single.1]
    rw [plain]
    exact foldable.fuse cond (all.branches wired branches') (all.branches wired branches) branches.ends fusion.single.1

theorem foldCachedClass (run : g.foldCachedClass b = .ok (some g')) : g'.Everywhere holds := by
  obtain ⟨head, follow, front, name, t, front', cached, atFront, rfl⟩ := wired.foldCachedClass_some run
  obtain ⟨cond, whenTrue, whenFalse, branches, _⟩ := cached.branches
  have changed (i : BlockId) : (g.withoutFill b head).contentOf i =
      (g.altered head Block.untested).contentOf i := contentOf_withoutBlock b i
  have atHead : front'.content = front.content.untested := by
    have found := changed head
    rw [contentOf_eq atFront, contentOf, altered_block, if_pos rfl, branches.found] at found
    exact Option.some.inj found
  have others (i : BlockId) (other : i ≠ head) (c : Content) (live : (g.withoutFill b head).Live i)
      (found : (g.withoutFill b head).contentOf i = some c) : holds i c := by
    rw [changed, contentOf, altered_block, if_neg (Ne.symm other)] at found
    exact all i c ((withoutFill_live i).mp live).1 found
  refine pushed foldable (joined (fun i other _ => others i other) fun apart c live found => ?_) follow _
  rw [atHead]
  exact foldable.joinTested (others follow apart c live found) (all.branches wired branches) branches.ends

end Everywhere

theorem Enters.orderly (enters : Enters g b g') (all : g.Everywhere fun _ => Content.Orderly) :
    g'.Everywhere fun _ => Content.Orderly := by
  cases enters with
  | same => exact all
  | declared t name found ops =>
    rw [altered_altered]
    refine all.altered (fun _ => ⟨rfl, rfl, rfl⟩) fun block atBlock orderly => ?_
    cases found.some_unique atBlock
    exact orderly.advance ops rfl (.inl (forall_mem_snoc (orderly.plain ops) rfl))
  | dropped found ops =>
    refine all.altered (Block.keepsWiring_withOps _) fun block atBlock orderly => ?_
    cases found.some_unique atBlock
    exact orderly.advance ops rfl (.inl (orderly.plain ops))
  | caught name => exact all.pushed Content.Orderly.foldable b _

end Graph

namespace Draft

open Unstack.Graph

variable {n : Nat} {plan : Plan} {b : BlockId} {d d' : Draft}

/-- An operation is executed: only a jump adds a branch, and it is the last operation. -/
theorem Executes.orderly {env : Setting} {o : Operation} {rest : List Operation} {block block' : Block}
    (executes : Executes plan env b o rest block block' d d') (sturdy : Sturdy n d.graph)
    (orderly : block.content.Orderly) : block'.content.Orderly := by
  obtain ⟨_, s, stmts, step, content⟩ := executes.executed sturdy
  have ops := executes.ops
  have plain := orderly.plain ops
  rw [content]
  refine orderly.advance ops rfl ?_
  change (∀ stmt ∈ s.stmts ++ stmts, _) ∨ rest = [] ∧ ∀ stmt ∈ (s.stmts ++ stmts).dropLast, _
  rcases Scratch.execute_appends step.executed with ⟨added, appended, quiet⟩ | ⟨jumps, cond, appended⟩
  · left
    intro stmt member
    rcases List.mem_append.mp member with early | last
    · rw [appended] at early
      exact (List.mem_append.mp early).elim (plain stmt) (quiet stmt)
    · rcases step.switched with none | ⟨_, value, _, single⟩
      · rw [none] at last
        cases last
      · rw [single, List.mem_singleton] at last
        rw [last]
        rfl
  · right
    have last : rest = [] := by
      by_contra inner
      have flows := orderly.inner o (by
        change o ∈ block.ops.dropLast
        rw [ops, List.dropLast_cons_of_ne_nil inner]
        exact .head _)
      rw [flows] at jumps
      cases jumps
    have none : stmts = [] := step.switched.resolve_right fun switched => by
      obtain ⟨⟨keys, targets, fallback, isSwitch⟩, _⟩ := switched
      rw [isSwitch] at jumps
      cases jumps
    refine ⟨last, ?_⟩
    rw [none, List.append_nil, appended, List.dropLast_concat]
    exact plain

theorem Turn.orderly (turn : Turn plan b d d') (sturdy : Sturdy n d.graph)
    (all : d.graph.Everywhere fun _ => Content.Orderly) : d'.graph.Everywhere fun _ => Content.Orderly := by
  cases turn with
  | enter enters => exact enters.orderly all
  | skip found ops => exact Enters.orderly (.dropped found ops) all
  | @execute env o rest block block' _ executes =>
    obtain ⟨_, s, stmts, step, _⟩ := executes.executed sturdy
    intro i c live found
    have live' := (altered_live (Block.keepsWiring_withOps rest) i).mp (step.live i live)
    by_cases here : b = i
    · subst here
      rw [contentOf_eq executes.found', Option.some.injEq] at found
      exact found ▸ executes.orderly sturdy (all b block.content live' (contentOf_eq executes.found))
    · rw [step.others i here, contentOf, altered_block, if_neg here] at found
      exact all i c live' found

/-- What a turn leaves as it is: the other blocks, and the mark of its own. -/
structure Local (b : BlockId) (d d' : Draft) : Prop where
  live (i : BlockId) : d'.graph.Live i → d.graph.Live i
  others (i : BlockId) : b ≠ i → d'.graph.contentOf i = d.graph.contentOf i
  notes : d.notes ⊆ d'.notes
  mark : (d'.graph.contentOf b).map Content.unreconstructed = (d.graph.contentOf b).map Content.unreconstructed

theorem Local.altered {change : Block → Block} (keeps : KeepsWiring change)
    (mark : ∀ block, (change block).unreconstructed = block.unreconstructed) :
    Local b d { d with graph := d.graph.altered b change } where
  live i := (altered_live keeps i).mp
  others i other := by simp only [contentOf, altered_block, if_neg other]
  notes := List.Subset.refl _
  mark := by
    simp only [contentOf, altered_block, if_true, Option.map_map]
    refine congrArg (Option.map · _) (funext fun block => ?_)
    exact mark block

/-- Work on one block leaves the others alone. -/
theorem Turn.isLocal (turn : Turn plan b d d') (sturdy : Sturdy n d.graph) : Local b d d' := by
  cases turn with
  | enter enters =>
    cases enters with
    | same => exact ⟨fun _ => id, fun _ _ => rfl, List.Subset.refl _, rfl⟩
    | declared t name _ _ =>
      rw [altered_altered]
      exact .altered (fun _ => ⟨rfl, rfl, rfl⟩) fun _ => rfl
    | dropped _ _ => exact .altered (Block.keepsWiring_withOps _) fun _ => rfl
    | caught name =>
      have pushed : Local b { d with graph := { d.graph with nextValue := d.graph.nextValue + 1 } } _ :=
        .altered (keepsWiring_push ⟨d.graph.nextValue, .var name⟩) fun _ => rfl
      exact ⟨pushed.live, pushed.others, pushed.notes, pushed.mark⟩
  | skip _ _ => exact .altered (Block.keepsWiring_withOps _) fun _ => rfl
  | @execute env o rest block block' _ executes =>
    obtain ⟨_, s, stmts, step, _⟩ := executes.executed sturdy
    have dropped : Local b d { d with graph := d.graph.altered b (Block.withOps rest) } :=
      .altered (Block.keepsWiring_withOps rest) fun _ => rfl
    refine ⟨fun i live => dropped.live i (step.live i live), fun i other => ?_,
      executes.notes ▸ List.subset_append_left _ _, ?_⟩
    · exact (step.others i other).trans (dropped.others i other)
    · rw [step.content, contentOf_eq executes.found]
      rfl

theorem Step.orderly (step : Step plan d d') (sturdy : Sturdy n d.graph)
    (all : d.graph.Everywhere fun _ => Content.Orderly) : d'.graph.Everywhere fun _ => Content.Orderly := by
  cases step with
  | conditional run => exact .foldConditional Content.Orderly.foldable all sturdy.wired run
  | fuse run => exact .fuseBranches Content.Orderly.foldable all sturdy.wired run
  | cached run => exact .foldCachedClass Content.Orderly.foldable all sturdy.wired run
  | turn turn => exact turn.orderly sturdy all
  | giveUp _ => exact all.altered Block.keepsWiring_givenUp fun _ _ orderly => ⟨orderly.inner, orderly.stmts⟩
  | renumber run =>
    have numbered := (sturdy.wired.searched run).1
    exact all.congr (fun i => (numbered.live_iff i).mp) numbered.contentOf

/-- By induction on the changes. -/
theorem Steps.orderly (steps : Steps plan d d') (sturdy : Sturdy n d.graph)
    (all : d.graph.Everywhere fun _ => Content.Orderly) : d'.graph.Everywhere fun _ => Content.Orderly :=
  (steps.keep (fun d => Sturdy n d.graph ∧ d.graph.Everywhere fun _ => Content.Orderly) ⟨sturdy, all⟩
    fun _ _ kept step => ⟨step.sturdy kept.1, step.orderly kept.1 kept.2⟩).2

end Draft

end Unstack
