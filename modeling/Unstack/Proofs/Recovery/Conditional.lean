import Unstack.Proofs.Recovery.Complete
import Unstack.Proofs.Recovery.Exclusive
import Unstack.Proofs.Recovery.ShortCircuit

namespace Unstack

theorem toOption_eq_some {ε α : Type} {x : Except ε α} {a : α} : x.toOption = some a ↔ x = .ok a := by
  cases x <;> simp [Except.toOption]

/-- The state arises while a method is reconstructed: the method is analysed, what cannot be reached is taken out, the
blocks are numbered, and the rest is steps of the reconstruction. -/
def Draft.Arises (m : MethodInput) (plan : Plan) (d : Draft) : Prop :=
  ∃ built solved count removed ready, (Graph.ofMethod m).run = .ok (.ok built) ∧
    built.solve plan.options = .ok (.ok (), solved) ∧ solved.removeUnreachable = .ok (count, removed) ∧
    removed.renumber = .ok ready ∧ Draft.Steps plan ⟨ready, []⟩ d

theorem Draft.Arises.sound {m : MethodInput} {plan : Plan} {d : Draft} (arises : d.Arises m plan) :
    ∃ n, Graph.Sturdy n d.graph ∧ d.graph.IsExclusive ∧ d.graph.Everywhere fun _ => Content.Orderly := by
  obtain ⟨built, solved, count, removed, ready, build, solve, remove, renumber, steps⟩ := arises
  have ofMethod := (Graph.ofMethod_yields m).of_run build
  obtain ⟨last, dead, prepares⟩ := ofMethod.prepares solve remove renumber
  have orderly : ready.Everywhere fun _ => Content.Orderly :=
    fun i c live found => ((prepares.orderly build).accounted i c live found).toOrderly
  exact ⟨_, steps.sturdy prepares.sturdy, steps.isExclusive prepares.sturdy (prepares.isExclusive ofMethod),
    steps.orderly prepares.sturdy orderly⟩

/-- The state in which the given blocks of a method are converted one after the other. -/
def MethodInput.converted? (m : MethodInput) (plan : Plan) (blocks : List BlockId) : Option Draft := do
  let solved ← Graph.solved? m plan.options
  let work : Checked Draft := do
    let (_, removed) ← solved.removeUnreachable
    let ready ← removed.renumber
    blocks.foldlM (fun d b => Prod.snd <$> Graph.convert plan b d) ⟨ready, []⟩
  work.toOption

theorem MethodInput.arises_of_converted? {m : MethodInput} {plan : Plan} {blocks : List BlockId} {d : Draft}
    (given : m.converted? plan blocks = some d) : d.Arises m plan := by
  obtain ⟨solved, isSolved, given⟩ := Option.bind_eq_some_iff.mp given
  obtain ⟨built, solved', build, solve⟩ := Graph.solves_of_isSome (Option.isSome_of_eq_some isSolved)
  obtain rfl : solved' = solved := by simpa [Graph.solved?, Building.result?, build, solve] using isSolved
  obtain ⟨⟨count, removed⟩, remove, work⟩ := bind_eq_ok.mp (toOption_eq_some.mp given)
  obtain ⟨ready, renumber, work⟩ := bind_eq_ok.mp work
  obtain ⟨_, _, prepares⟩ := ((Graph.ofMethod_yields m).of_run build).prepares solve remove renumber
  refine ⟨built, solved', count, removed, ready, build, solve, remove, renumber, ?_⟩
  refine foldlM_keeps work .refl fun start b next reached run => ?_
  rw [map_eq_pure_bind] at run
  obtain ⟨⟨complete, last⟩, converted, same⟩ := bind_eq_ok.mp run
  cases same
  exact reached.trans (Draft.Turn.steps (Graph.convert_turns (reached.sturdy prepares.sturdy) converted).1)

/-- The value of folded arms is the value of the arm that the condition chooses, evaluated after the condition. -/
theorem Semantics.eval_ofArms {σ ε ν : Type} {M : Semantics σ ε ν} {cond yes no : Expr}
    (plain : cond.cachedClass? yes no = none) (complementary : yes = .bool false → no = .bool true → M.Complementary)
    {taken : Bool} {w w' : World σ}
    (tested : (M.test cond).outcome w = (.ok taken, w')) :
    (M.eval (cond.ofArms yes no)).outcome w = (M.eval (if taken then yes else no)).outcome w' := by
  have chosen {α : Type} (next : Bool → Run σ ε α) : (M.test cond >>= next).outcome w = (next taken).outcome w' := by
    rw [Run.outcome_bind, tested]
  unfold Expr.ofArms
  split
  · rw [M.test_eq_ok.mp tested]
    cases taken <;> rfl
  · have negated : (M.test cond.negate).outcome w = (.ok !taken, w') := by
      rw [M.test_negate (complementary rfl rfl), map_eq_pure_bind]
      exact chosen _
    rw [M.test_eq_ok.mp negated]
    cases taken <;> rfl
  · rw [plain, Option.getD_none]
    have split : M.eval (.conditional cond yes no) = M.test cond >>= fun b => if b then M.eval yes else M.eval no := by
      simp only [eval, test, bind_assoc]
    rw [split, chosen]
    cases taken <;> rfl

/-- A place in a block: the statements and then the operations that are still to come, and what lies on the stack when
the operations start, top first. -/
structure Place where
  block : BlockId
  stmts : List Stmt
  ops : List Operation
  values : List Expr

def Block.values (block : Block) : List Expr := block.stack.map StackValue.expr

namespace Graph

variable {g g' : Graph} {b : BlockId} {σ ε ν : Type} {M : Semantics σ ε ν} {e : EdgeId}

/-- Where control stands when it enters a block and finds the given values on the stack. -/
def entry (g : Graph) (b : BlockId) (below : List Expr) : Checked Place := do
  let block ← g.block b
  return ⟨b, block.stmts, block.ops, block.values ++ below⟩

/-- One step of control that meets no exception: a statement runs, a branch is decided, or control goes on with the
next block. -/
inductive Goes (M : Semantics σ ε ν) (g : Graph) : Place × World σ → Place × World σ → Prop where
  | run {b : BlockId} {stmt : Stmt} {stmts : List Stmt} {ops : List Operation} {values : List Expr} {w w' : World σ} :
    stmt.isBranch = false → (M.exec stmt).outcome w = (.ok (), w') →
    Goes M g (⟨b, stmt :: stmts, ops, values⟩, w) (⟨b, stmts, ops, values⟩, w')
  | branch {b next : BlockId} {cond : Expr} {taken : Bool} {values : List Expr} {place : Place} {w w' : World σ} :
    (M.test cond).outcome w = (.ok taken, w') →
    (if taken then g.trueSucc b else g.falseSucc b) = .ok (some next) → g.entry next values = .ok place →
    Goes M g (⟨b, [.branch cond], [], values⟩, w) (place, w')
  | onward {b next : BlockId} {values : List Expr} {place : Place} {w : World σ} :
    g.succ b = .ok (some next) → g.entry next values = .ok place →
    Goes M g (⟨b, [], [], values⟩, w) (place, w)

/-- Control comes from one place to the other. -/
abbrev Flows (M : Semantics σ ε ν) (g : Graph) : Place × World σ → Place × World σ → Prop :=
  Relation.ReflTransGen (Goes M g)

theorem entry_eq {c : Content} (found : g.contentOf b = some c) (below : List Expr) :
    g.entry b below = .ok ⟨b, c.stmts, c.ops, c.stack.map StackValue.expr ++ below⟩ := by
  obtain ⟨block, atBlock, rfl⟩ := Option.map_eq_some_iff.mp found
  simp only [entry, block_eq_ok.mpr atBlock, ok_bind]
  rfl

/-- Statements without a branch run one after the other. -/
theorem Flows.stmts {stmts : List Stmt} (plain : ∀ stmt ∈ stmts, stmt.isBranch = false) {w w' : World σ}
    (ran : (M.execAll stmts).outcome w = (.ok (), w')) (b : BlockId) (rest : List Stmt) (ops : List Operation)
    (values : List Expr) : Flows M g (⟨b, stmts ++ rest, ops, values⟩, w) (⟨b, rest, ops, values⟩, w') := by
  induction stmts generalizing w with
  | nil =>
    cases ran
    exact .refl
  | cons stmt later ih =>
    obtain ⟨_, mid, first, others⟩ := Run.outcome_bind_eq_ok.mp ran
    have step : Goes M g (⟨b, stmt :: later ++ rest, ops, values⟩, w) (⟨b, later ++ rest, ops, values⟩, mid) :=
      .run (plain stmt (.head _)) first
    exact .head step (ih (fun stmt' member => plain stmt' (.tail _ member)) others)

/-- A kind of edge that leaves a block once leads where its edge leads. -/
theorem Wired.targetOf_of_once (wired : g.Wired) {kind : EdgeKind} (once : (g.kindsOf b).count kind = 1) {edge : Edge}
    {target : BlockId} (atEdge : g.edges[e]? = some edge) (isKind : edge.kind = kind) (joins : g.Joins e b target) :
    g.targetOf kind b = .ok (some target) := by
  have inside := (wired.ends_live e _ _ joins).1.lt
  obtain ⟨chosen, run, sound⟩ := wired.targetOf_total inside kind
  cases chosen with
  | some other =>
    obtain ⟨e', edge', atEdge', isKind', joins'⟩ := sound other rfl
    cases wired.edge_unique once atEdge isKind joins atEdge' isKind' joins'
    rw [run, (joins.unique joins').2]
  | none =>
    obtain ⟨outs, leaving, _⟩ := wired.leaving inside
    have listed : kind ∈ outs.map fun out => out.2.kind := by
      rw [← kindsOf_eq_map leaving]
      exact wired.mem_kindsOf.mpr ⟨e, edge, target, atEdge, isKind, joins⟩
    obtain ⟨out, member, isKind'⟩ := List.mem_map.mp listed
    simp only [targetOf, leaving, ok_bind] at run
    have absent := Option.map_eq_none_iff.mp (Except.ok.inj run)
    have other := List.find?_eq_none.mp absent out member
    simp [isKind'] at other

theorem Wired.succ_withEdge (wired : g.Wired) {dest : BlockId} (live : g.Live b) (liveDest : g.Live dest)
    (handlers : ∀ kind ∈ g.kindsOf b, kind.group? = none) : (g.withEdge b dest .sequence).succ b = .ok (some dest) := by
  have fresh : (g.kindsOf b).count .sequence = 0 := by
    rw [List.count_eq_zero]
    intro member
    cases handlers _ member
  have once : ((g.withEdge b dest .sequence).kindsOf b).count .sequence = 1 := by
    rw [wired.kindsOf_withEdge live.lt, if_pos rfl, List.count_append, fresh]
    rfl
  have atEdge : (g.withEdge b dest .sequence).edges[g.edges.size]? = some ⟨b, dest, .sequence, false, false⟩ := by
    rw [withEdge_edge, if_pos rfl]
  exact (wired.withEdge .sequence live liveDest).targetOf_of_once once atEdge rfl
    ((withEdge_joins ..).mpr (.inl ⟨rfl, rfl, rfl⟩))

section Diamond

variable {head whenTrue whenFalse next : BlockId} {front : Block} {cond value : Expr} {yes no : StackValue}
  {taken : Bool} {w w₀ w₁ : World σ}

/-- Before a branch is folded, control goes from its head through the arm that the condition chooses. -/
theorem Diamond.flows_through_arm (wired : g.Wired) (diamond : g.Diamond b head front cond whenTrue whenFalse yes no)
    (orderly : front.content.Orderly) (onward : g.succ (if taken then whenTrue else whenFalse) = .ok (some next))
    (ran : (M.execAll front.stmts.dropLast).outcome w = (.ok (), w₀))
    (tested : (M.test cond).outcome w₀ = (.ok taken, w₁)) (below : List Expr) :
    ∃ place place', g.entry head below = .ok place ∧
      g.entry next ((if taken then yes else no).expr :: front.values ++ below) = .ok place' ∧
      g.Flows M (place, w) (place', w₁) := by
  obtain ⟨done, plain⟩ := orderly.of_branch diamond.branches.ends
  obtain ⟨_, atTrue, atFalse⟩ := condition?_eq_ok.mp diamond.branches.read
  obtain ⟨e, _, _, _, leads⟩ := wired.targetOf_eq_ok onward
  obtain ⟨after, found, _⟩ := (wired.ends_live e _ _ leads).2
  have atHead := entry_eq (contentOf_eq diamond.branches.found) below
  have atNext := entry_eq (contentOf_eq found) ((if taken then yes else no).expr :: front.values ++ below)
  refine ⟨_, _, atHead, atNext, ?_⟩
  have stmts : front.stmts = front.stmts.dropLast ++ [.branch cond] :=
    (List.dropLast_append_getLast? _ diamond.branches.ends).symm
  have first : g.Flows M (⟨head, front.stmts, front.ops, front.values ++ below⟩, w)
      (⟨head, [.branch cond], [], front.values ++ below⟩, w₀) := by
    rw [stmts, show front.ops = [] from done]
    exact Flows.stmts plain ran ..
  have chosen : (if taken then g.trueSucc head else g.falseSucc head) =
      .ok (some (if taken then whenTrue else whenFalse)) := by
    cases taken
    · exact atFalse
    · exact atTrue
  have atArm : g.entry (if taken then whenTrue else whenFalse) (front.values ++ below) =
      .ok ⟨if taken then whenTrue else whenFalse, [], [], (if taken then yes else no).expr :: front.values ++ below⟩ := by
    have arm : g.Arm b (if taken then whenTrue else whenFalse) (if taken then yes else no) := by
      cases taken
      · exact diamond.no
      · exact diamond.yes
    obtain ⟨block, atBlock, stack, noStmts, noOps⟩ := arm.holds
    rw [entry_eq (contentOf_eq atBlock)]
    simp [Block.content, stack, noStmts, noOps]
  exact (first.tail (.branch tested chosen atArm)).tail (.onward onward atNext)

/-- When the branch is folded into the block where the arms meet, that block starts with what the head did and has
the value that the arms left. -/
theorem Diamond.flows_joined (diamond : g.Diamond b head front cond whenTrue whenFalse yes no)
    (orderly : front.content.Orderly) (apart : head ≠ b) {block front' : Block} (found : g.blocks[b]? = some block)
    (unused : block.stack = []) (atFront : (g.withoutArms head whenTrue whenFalse).blocks[head]? = some front')
    (folded : g' = ((g.withoutArms head whenTrue whenFalse).joined b head front').pushed b value)
    (ran : (M.execAll front.stmts.dropLast).outcome w = (.ok (), w₀)) (below : List Expr) :
    ∃ place place', g'.entry b below = .ok place ∧ g.entry b (value :: front.values ++ below) = .ok place' ∧
      g'.Flows M (place, w) (place', w₀) := by
  obtain ⟨done, plain⟩ := orderly.of_branch diamond.branches.ends
  have unbranched : front'.content = front.content.unbranched := by
    have same : (g.withoutArms head whenTrue whenFalse).contentOf head = _ := contentOf_withoutArms head
    rw [if_pos rfl, contentOf_eq atFront, contentOf_eq diamond.branches.found] at same
    exact Option.some.inj same
  obtain ⟨id, after⟩ : ∃ id, g'.contentOf b = some ((front.content.unbranched.before block.content).push ⟨id, value⟩) := by
    rw [folded, contentOf_pushed, if_pos rfl, contentOf_joined_of_ne _ _ (Ne.symm apart), if_pos rfl,
      contentOf_withoutArms, if_neg apart, contentOf_eq found, unbranched]
    exact ⟨_, rfl⟩
  refine ⟨_, _, entry_eq after below, entry_eq (contentOf_eq found) _, ?_⟩
  have noOps : front.ops = [] := done
  simp only [Content.push, Content.before, Content.unbranched, Block.content, noOps, unused, List.nil_append, List.map_cons]
  exact Flows.stmts plain ran ..

theorem Diamond.setSucc_eq (wired : g.Wired) (exclusive : g.IsExclusive)
    (diamond : g.Diamond b head front cond whenTrue whenFalse yes no)
    (setting : ((g.withoutArms head whenTrue whenFalse).pushed head value).setSucc head b = .ok (e, g')) :
    g' = ((g.withoutArms head whenTrue whenFalse).pushed head value).withEdge head b .sequence ∧
      g'.succ head = .ok (some b) := by
  obtain ⟨stays, headStays⟩ := diamond.stay wired
  obtain ⟨handlers, _⟩ := diamond.isExclusive_withoutArms wired exclusive
  have wired₁ := pushed_wired (wired.withoutArms head whenTrue whenFalse) head value
  have live := (pushed_live head value head).mpr headStays
  have liveDest := (pushed_live head value b).mpr stays
  have handlers₁ : ∀ kind ∈ ((g.withoutArms head whenTrue whenFalse).pushed head value).kindsOf head,
      kind.group? = none := by rwa [kindsOf_pushed]
  rw [wired₁.setSucc_handlers live liveDest handlers₁] at setting
  cases setting
  exact ⟨rfl, wired₁.succ_withEdge live liveDest handlers₁⟩

/-- When other arms remain, the head becomes an arm of its own: it has the value and goes on with the block where
the arms meet. -/
theorem Diamond.flows_onward (wired : g.Wired) (exclusive : g.IsExclusive)
    (diamond : g.Diamond b head front cond whenTrue whenFalse yes no) (orderly : front.content.Orderly)
    (apart : head ≠ b)
    (setting : ((g.withoutArms head whenTrue whenFalse).pushed head value).setSucc head b = .ok (e, g'))
    (ran : (M.execAll front.stmts.dropLast).outcome w = (.ok (), w₀)) (below : List Expr) :
    ∃ place place', g'.entry head below = .ok place ∧ g.entry b (value :: front.values ++ below) = .ok place' ∧
      g'.Flows M (place, w) (place', w₀) := by
  obtain ⟨done, plain⟩ := orderly.of_branch diamond.branches.ends
  obtain ⟨folded, leads⟩ := diamond.setSucc_eq wired exclusive setting
  obtain ⟨block, found, _⟩ := (diamond.yes.live wired).2
  obtain ⟨id, atHead⟩ : ∃ id, g'.contentOf head = some (front.content.unbranched.push ⟨id, value⟩) := by
    rw [folded, contentOf_withEdge, contentOf_pushed, if_pos rfl, contentOf_withoutArms, if_pos rfl,
      contentOf_eq diamond.branches.found]
    exact ⟨_, rfl⟩
  have atBlock : g'.contentOf b = some block.content := by
    rw [folded, contentOf_withEdge, contentOf_pushed, if_neg apart, contentOf_withoutArms, if_neg apart,
      contentOf_eq found]
  refine ⟨_, _, entry_eq atHead below, entry_eq (contentOf_eq found) _, ?_⟩
  have noOps : front.ops = [] := done
  simp only [Content.push, Content.unbranched, Block.content, noOps, List.map_cons]
  have ran : g'.Flows M (⟨head, front.stmts.dropLast, [], value :: front.values ++ below⟩, w)
      (⟨head, [], [], value :: front.values ++ below⟩, w₀) := by
    rw [← List.append_nil front.stmts.dropLast]
    exact Flows.stmts plain ran ..
  exact ran.tail (.onward leads (entry_eq atBlock _))

end Diamond

/-- A branch whose arms leave a value is folded: what entered its head enters `heir`, and where control went from the
head through the chosen arm to `b`, it now reaches `b` with a value that evaluates to the one of the arm. -/
theorem foldConditional_keeps_flow {m : MethodInput} {plan : Plan} {d : Draft} (arises : d.Arises m plan)
    (run : d.graph.foldConditional b = .ok (some g')) :
    ∃ head front cond whenTrue whenFalse yes no heir value,
      d.graph.Diamond b head front cond whenTrue whenFalse yes no ∧ (heir = head ∨ heir = b) ∧
      (head ≠ b → ∀ e source, g'.Live source → d.graph.Joins e source head → g'.Joins e source heir) ∧
      ∀ {σ ε ν : Type} (M : Semantics σ ε ν) (taken : Bool) (next : BlockId) (below : List Expr) (w w₀ w₁ : World σ),
        d.graph.succ (if taken then whenTrue else whenFalse) = .ok (some next) →
        (M.execAll front.stmts.dropLast).outcome w = (.ok (), w₀) → (M.test cond).outcome w₀ = (.ok taken, w₁) →
        (∃ start there, d.graph.entry head below = .ok start ∧
          d.graph.entry next ((if taken then yes else no).expr :: front.values ++ below) = .ok there ∧
          d.graph.Flows M (start, w) (there, w₁)) ∧
        (cond.cachedClass? yes.expr no.expr = none → (yes.expr = .bool false → no.expr = .bool true → M.Complementary) →
          next = b → head ≠ b → (heir = b → ∃ block, d.graph.blocks[b]? = some block ∧ block.stack = []) →
          (M.eval value).outcome w₀ = (M.eval (if taken then yes else no).expr).outcome w₁ ∧
          ∃ start there, g'.entry heir below = .ok start ∧
            d.graph.entry next (value :: front.values ++ below) = .ok there ∧
            g'.Flows M (start, w) (there, w₀)) := by
  obtain ⟨n, sturdy, exclusive, orderly⟩ := arises.sound
  have wired := sturdy.wired
  obtain ⟨head, front, cond, whenTrue, whenFalse, yes, no, diamond, folding⟩ := wired.foldConditional_some run
  have bare := wired.withoutArms head whenTrue whenFalse
  obtain ⟨stays, headStays⟩ := diamond.stay wired
  have atHead : front.content.Orderly := orderly head _ (diamond.branches.live wired) (contentOf_eq diamond.branches.found)
  have value {σ ε ν : Type} {M : Semantics σ ε ν} {taken : Bool} {w₀ w₁ : World σ}
      (plain : cond.cachedClass? yes.expr no.expr = none)
      (complementary : yes.expr = .bool false → no.expr = .bool true → M.Complementary)
      (tested : (M.test cond).outcome w₀ = (.ok taken, w₁)) :
      (M.eval (cond.ofArms yes.expr no.expr)).outcome w₀ = (M.eval (if taken then yes else no).expr).outcome w₁ := by
    rw [Semantics.eval_ofArms plain complementary tested]
    cases taken <;> rfl
  have stay {e : EdgeId} {source : BlockId} (live : (d.graph.withoutArms head whenTrue whenFalse).Live source)
      (joins : d.graph.Joins e source head) : (d.graph.withoutArms head whenTrue whenFalse).Joins e source head := by
    obtain ⟨_, sourceStays⟩ := (withoutArms_live source).mp live
    obtain ⟨_, headStays⟩ := (withoutArms_live head).mp headStays
    exact wired.withoutArms_joins.mpr ⟨joins, sourceStays, headStays⟩
  rcases diamond.foldArms_some wired folding with ⟨_, front', atFront, folded⟩ | ⟨e, setting⟩
  · refine ⟨head, front, cond, whenTrue, whenFalse, yes, no, b, cond.ofArms yes.expr no.expr, diamond, .inr rfl, ?_, ?_⟩
    · intro apart e source live joins
      rw [folded, pushed_live] at live
      obtain ⟨live, notHead⟩ := (joined_live ..).mp live
      rw [folded]
      exact (bare.joined_joins atFront stays (fun same => absurd same.symm apart) e source b).mpr
        ⟨notHead, head, stay live joins, (if_pos rfl).symm⟩
    · intro σ ε ν M taken next below w w₀ w₁ onward ran tested
      refine ⟨diamond.flows_through_arm wired atHead onward ran tested below, ?_⟩
      rintro plain complementary rfl apart unused
      obtain ⟨block, found, unused⟩ := unused rfl
      exact ⟨value plain complementary tested,
        diamond.flows_joined atHead apart found unused atFront folded ran below⟩
  · refine ⟨head, front, cond, whenTrue, whenFalse, yes, no, head, cond.ofArms yes.expr no.expr, diamond, .inl rfl, ?_, ?_⟩
    · intro _ e' source live joins
      obtain ⟨folded, _⟩ := diamond.setSucc_eq wired exclusive setting
      rw [folded, withEdge_live_iff, pushed_live] at live
      rw [folded]
      exact (withEdge_joins ..).mpr (.inr (stay live joins))
    · intro σ ε ν M taken next below w w₀ w₁ onward ran tested
      refine ⟨diamond.flows_through_arm wired atHead onward ran tested below, ?_⟩
      rintro plain complementary rfl apart _
      exact ⟨value plain complementary tested,
        diamond.flows_onward wired exclusive atHead apart setting ran below⟩

/-- One of two numbers is dropped. Both come as one value to the block that drops it. -/
theorem foldConditional_keeps_flow_choice : ∃ (d : Draft) (g' : Graph) (heir : BlockId) (value : Expr) (start there : Place),
    d.Arises .choice ⟨.none, {}⟩ ∧ d.graph.foldConditional 3 = .ok (some g') ∧ g'.entry heir [] = .ok start ∧
    d.graph.entry 3 [value] = .ok there ∧ g'.Flows .zeros (start, ⟨(), []⟩) (there, ⟨(), []⟩) ∧
    ((Semantics.zeros.eval value).outcome ⟨(), []⟩).1.toOption.map Value.number = some 2 := by
  have shaped : (MethodInput.choice.converted? ⟨.none, {}⟩ [0, 1, 2]).any fun d =>
      (d.graph.foldConditional 3).toOption.any Option.isSome ∧ d.graph.blocks.size = 4 ∧
      (d.graph.blocks[3]?.any fun block => block.stack.isEmpty) ∧ ∀ head < 4,
        (d.graph.condition? head).toOption.all fun read => read.all fun branch =>
          head ≠ 3 ∧ (d.graph.succ branch.2.1).toOption = some (some 3) ∧
          (d.graph.blocks[head]?.all fun front => front.stmts.length = 1 ∧ front.stack.isEmpty) ∧
          ((Semantics.zeros.test branch.1).outcome ⟨(), []⟩).1.toOption = some true ∧
          d.graph.blocks[branch.2.1]?.all fun arm => arm.stack.all fun yes =>
            (((Semantics.zeros.eval yes.expr).outcome ((Semantics.zeros.test branch.1).outcome ⟨(), []⟩).2).1.toOption.map
              Value.number) = some 2 ∧
            d.graph.blocks[branch.2.2]?.all fun arm' => arm'.stack.all fun no =>
              (branch.1.cachedClass? yes.expr no.expr).isNone := by decide +kernel
  obtain ⟨d, given, shaped⟩ := (Option.any_eq_true _ _).mp shaped
  obtain ⟨folds, size, unused, each⟩ := of_decide_eq_true shaped
  have arises := MethodInput.arises_of_converted? given
  obtain ⟨_ | g', run, isSome⟩ := of_any_toOption folds
  · cases isSome
  obtain ⟨head, front, cond, whenTrue, whenFalse, yes, no, heir, value, diamond, _, _, flow⟩ :=
    foldConditional_keeps_flow arises run
  obtain ⟨n, sturdy, _⟩ := arises.sound
  have inside : head < 4 := by
    rw [← size]
    exact (diamond.branches.live sturdy.wired).lt
  obtain ⟨armTrue, atTrue, stackTrue, _⟩ := diamond.yes.holds
  obtain ⟨armFalse, atFalse, stackFalse, _⟩ := diamond.no.holds
  have here := each head inside
  rw [diamond.branches.read, diamond.branches.found] at here
  obtain ⟨apart, onward, atHead, tested, arms⟩ := of_decide_eq_true here
  obtain ⟨single, empty⟩ := of_decide_eq_true atHead
  rw [atTrue] at arms
  obtain ⟨two, other⟩ := of_decide_eq_true (List.all_eq_true.mp arms yes (by simp [stackTrue]))
  rw [atFalse] at other
  have plain := List.all_eq_true.mp other no (by simp [stackFalse])
  have ran : (Semantics.zeros.execAll front.stmts.dropLast).outcome ⟨(), []⟩ = (.ok (), ⟨(), []⟩) := by
    obtain ⟨stmt, stmts⟩ := List.length_eq_one_iff.mp single
    rw [stmts]
    rfl
  have tested : (Semantics.zeros.test cond).outcome ⟨(), []⟩ =
      (.ok true, ((Semantics.zeros.test cond).outcome ⟨(), []⟩).2) := Prod.ext (toOption_eq_some.mp tested) rfl
  have noValues : front.values = [] := by
    rw [Block.values, List.isEmpty_iff.mp empty, List.map_nil]
  obtain ⟨block, atBlock, unused⟩ := (Option.any_eq_true _ _).mp unused
  obtain ⟨same, start, there, atStart, atThere, flows⟩ := (flow Semantics.zeros true 3 [] _ _ _ (toOption_eq_some.mp onward)
    ran tested).2 (Option.isNone_iff_eq_none.mp plain) (fun _ _ => Semantics.zeros_complementary) rfl apart
    fun _ => ⟨block, atBlock, List.isEmpty_iff.mp unused⟩
  rw [noValues, List.append_nil] at atThere
  exact ⟨d, g', heir, value, start, there, arises, run, atStart, atThere, flows, same ▸ two⟩

/-- Control does not come to a block that no edge enters. -/
theorem Wired.not_flows_into (wired : g.Wired) (alone : g.preds b = .ok []) {start there : Place × World σ}
    (elsewhere : start.1.block ≠ b) (flows : g.Flows M start there) : there.1.block ≠ b := by
  have notTarget {kind : EdgeKind} {source next : BlockId} {values : List Expr} {place : Place}
      (leads : g.targetOf kind source = .ok (some next)) (enters : g.entry next values = .ok place) : place.block ≠ b := by
    obtain ⟨_, _, same⟩ := bind_eq_ok.mp enters
    cases same
    rintro rfl
    obtain ⟨e, _, _, _, joins⟩ := wired.targetOf_eq_ok leads
    cases ((wired.preds_eq_ok alone).2 source).mpr ⟨e, joins⟩
  induction flows with
  | refl => exact elsewhere
  | tail _ step apart =>
    cases step with
    | run => exact apart
    | onward leads enters => exact notTarget leads enters
    | branch _ leads enters =>
      split at leads
      · exact notTarget leads enters
      · exact notTarget leads enters

end Graph

/-- One of two numbers is stored. A handler covers the blocks that push them. -/
def MethodInput.guardedChoice : MethodInput where
  info := MethodInfo.plain "guardedChoice" 3 1
  ops := [⟨0, 0, -1, .load .int 0⟩, ⟨0, 0, -1, .jumpZero .int .ne 4⟩, ⟨0, 0, -1, .push .int (.int 1)⟩,
    ⟨0, 0, -1, .goto 5⟩, ⟨0, 0, -1, .push .int (.int 2)⟩, ⟨0, 0, -1, .store .int 1⟩, ⟨0, 0, -1, .leave .void⟩,
    ⟨0, 0, -1, .store (.object "java.lang.Throwable") 2⟩, ⟨0, 0, -1, .leave .void⟩]
  exceptions := [⟨2, 5, 7, none⟩]

/-- The arms meet in the handler as well, where they are folded. Both went on with the block that stores the number,
and nothing leads there afterwards. -/
theorem Graph.foldConditional_loses_arms : ∃ (d : Draft) (g' : Graph), d.Arises .guardedChoice ⟨.none, {}⟩ ∧
    d.graph.foldConditional 4 = .ok (some g') ∧ d.graph.trueSucc 0 = .ok (some 2) ∧ d.graph.falseSucc 0 = .ok (some 1) ∧
    d.graph.succ 2 = .ok (some 3) ∧ d.graph.succ 1 = .ok (some 3) ∧
    ∀ {σ ε ν : Type} (M : Semantics σ ε ν) (start there : Place × World σ), start.1.block ≠ 3 →
      g'.Flows M start there → there.1.block ≠ 3 := by
  have shaped : (MethodInput.guardedChoice.converted? ⟨.none, {}⟩ [0, 1, 2]).any fun d =>
      (d.graph.foldConditional 4).toOption.any (fun folded => folded.any fun g' => (g'.preds 3).toOption = some []) ∧
      (d.graph.trueSucc 0).toOption = some (some 2) ∧ (d.graph.falseSucc 0).toOption = some (some 1) ∧
      (d.graph.succ 2).toOption = some (some 3) ∧ (d.graph.succ 1).toOption = some (some 3) := by decide +kernel
  obtain ⟨d, given, shaped⟩ := (Option.any_eq_true _ _).mp shaped
  obtain ⟨folds, atTrue, atFalse, fromTrue, fromFalse⟩ := of_decide_eq_true shaped
  obtain ⟨_ | g', run, alone⟩ := of_any_toOption folds
  · cases alone
  have arises := MethodInput.arises_of_converted? given
  obtain ⟨n, sturdy, _⟩ := arises.sound
  have alone : g'.preds 3 = .ok [] := toOption_eq_some.mp (of_decide_eq_true alone)
  refine ⟨d, g', arises, run, toOption_eq_some.mp atTrue, toOption_eq_some.mp atFalse, toOption_eq_some.mp fromTrue,
    toOption_eq_some.mp fromFalse, fun M start there elsewhere flows => ?_⟩
  have step : Draft.Step ⟨.none, {}⟩ d { d with graph := g' } := .conditional run
  exact (step.sturdy sturdy).wired.not_flows_into alone elsewhere flows

end Unstack
