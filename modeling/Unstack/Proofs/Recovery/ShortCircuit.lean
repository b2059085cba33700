import Unstack.Proofs.Expr.Evaluation
import Unstack.Proofs.Graph.Arena
import Unstack.Proofs.Graph.Joining
import Unstack.Proofs.Recovery.Whole

namespace Unstack

namespace Semantics

variable {σ ε ν : Type} {M : Semantics σ ε ν}

/-- The negation of a condition holds exactly if the condition does not, and evaluating it does all that evaluating the
condition does, in the same order. -/
theorem test_negate (complementary : M.Complementary) (e : Expr) : M.test e.negate = (!·) <$> M.test e := by
  fun_induction Expr.negate e with
  | case1 e => simp [test_not]
  | case2 b => simp [test_bool]
  | case3 lhs rhs ihLeft ihRight =>
    simp only [test_or, test_and, ihLeft, ihRight, bind_map_left, map_bind]
    refine bind_congr fun first => ?_
    cases first <;> simp
  | case4 lhs rhs ihLeft ihRight =>
    simp only [test_or, test_and, ihLeft, ihRight, bind_map_left, map_bind]
    refine bind_congr fun first => ?_
    cases first <;> simp
  | case5 op lhs rhs _ _ negated turned =>
    have relational : op.isRelational = true ∧ negated.isRelational = true := by
      cases op <;> cases turned <;> exact ⟨rfl, rfl⟩
    rw [test_relation M relational.1, test_relation M relational.2]
    simp [complementary op negated turned]
  | case6 op lhs rhs => exact test_not M _
  | case7 e => exact test_not M e

/-- Two branches in a row go where the one branch goes that tests both conditions together, and the second condition
is evaluated only where it was before. -/
theorem test_fused {first second cond : Expr} {b whenTrue whenFalse firstTrue firstFalse : BlockId}
    (complementary : M.Complementary)
    (fused : Expr.fused? first second b whenTrue whenFalse firstTrue firstFalse = some cond) :
    (do return if ← M.test cond then whenTrue else whenFalse) = (do
      let next := if ← M.test first then firstTrue else firstFalse
      if next = b then return if ← M.test second then whenTrue else whenFalse else return next : Run σ ε BlockId) := by
  unfold Expr.fused? at fused
  split at fused
  · rename_i sides
    simp only [Bool.and_eq_true, decide_eq_true_eq] at sides
    obtain ⟨rfl, apart⟩ := sides
    split at fused
    · subst_vars
      cases fused
      simp only [test_or, test_negate complementary, bind_map_left, bind_assoc]
      refine bind_congr fun holds => ?_
      cases holds <;> simp_all
    · split at fused <;> cases fused
      subst_vars
      simp only [test_and, bind_assoc]
      refine bind_congr fun holds => ?_
      cases holds <;> simp_all
  · split at fused
    · rename_i sides
      simp only [Bool.and_eq_true, decide_eq_true_eq] at sides
      obtain ⟨rfl, apart⟩ := sides
      split at fused
      · subst_vars
        cases fused
        simp only [test_or, bind_assoc]
        refine bind_congr fun holds => ?_
        cases holds <;> simp_all
      · split at fused <;> cases fused
        subst_vars
        simp only [test_and, test_negate complementary, bind_map_left, bind_assoc]
        refine bind_congr fun holds => ?_
        cases holds <;> simp_all
    · cases fused

end Semantics

namespace Graph

variable {g g' : Graph} {b : BlockId} {σ ε ν : Type} {M : Semantics σ ε ν}

/-- Control that enters a block with a branch at its end: the statements in front of the branch run, its condition is
evaluated, and control goes on with the successor for its value. -/
def follow (M : Semantics σ ε ν) (g : Graph) (b : BlockId) : Option (Run σ ε BlockId) :=
  match g.block b, g.condition? b with
  | .ok block, .ok (some (cond, whenTrue, whenFalse)) => some do
    M.execAll block.stmts.dropLast
    return if ← M.test cond then whenTrue else whenFalse
  | _, _ => none

theorem Branches.follow {block : Block} {cond : Expr} {whenTrue whenFalse : BlockId}
    (branches : g.Branches b block cond whenTrue whenFalse) :
    g.follow M b = some (do
      M.execAll block.stmts.dropLast
      return if ← M.test cond then whenTrue else whenFalse) := by
  simp only [Graph.follow, block_eq_ok.mpr branches.found, branches.read]

section Fusion

variable {pred : BlockId} {front block front' : Block} {first second cond : Expr}

theorem Fusion.joined_stmts (fusion : g.Fusion b pred front block first second cond)
    (atFront : (g.withFused b pred cond).blocks[pred]? = some front') :
    ∃ fused, ((g.withFused b pred cond).joined b pred front').blocks[b]? = some fused ∧
      fused.stmts = front.stmts.dropLast ++ [.branch cond] := by
  obtain ⟨_, _, branches, _, _, branches', _⟩ := fusion.front
  have atPred : front'.stmts = front.stmts.dropLast ++ [.branch cond] := by
    rw [Graph.withFused, altered_block, if_neg (Ne.symm fusion.apart), altered_self branches.found] at atFront
    cases atFront
    simp only [Block.recond, changeCond, branches.ends]
  have atBlock : (g.withFused b pred cond).contentOf b = some block.beheaded.content := by
    rw [contentOf, Graph.withFused, altered_block, if_pos rfl, altered_block, if_neg fusion.apart, branches'.found]
    rfl
  have content := contentOf_joined_of_ne (g := g.withFused b pred cond) b front' (Ne.symm fusion.apart)
  rw [if_pos rfl, atBlock] at content
  obtain ⟨fused, found, same⟩ := Option.map_eq_some_iff.mp content
  refine ⟨fused, found, ?_⟩
  calc fused.stmts = front'.stmts ++ block.stmts.drop 1 := congrArg Content.stmts same
    _ = front.stmts.dropLast ++ [.branch cond] := by rw [atPred, fusion.single.1]; simp

/-- The fused block goes where its two branches went. -/
theorem Fusion.follow_joined (wired : g.Wired) (fusion : g.Fusion b pred front block first second cond)
    (atFront : (g.withFused b pred cond).blocks[pred]? = some front') (complementary : M.Complementary) :
    ∃ before after, g.follow M pred = some before ∧ g.follow M b = some after ∧
      ((g.withFused b pred cond).joined b pred front').follow M b = some (do
        let next ← before
        return afterJoin b pred (← if next = b then after else pure next)) := by
  obtain ⟨firstTrue, firstFalse, branches, whenTrue, whenFalse, branches', fused⟩ := fusion.front
  refine ⟨_, _, branches.follow, branches'.follow, ?_⟩
  obtain ⟨_, atTrue, atFalse⟩ := condition?_eq_ok.mp branches'.read
  have bare := wired.withFused b pred cond
  have live : (g.withFused b pred cond).Live b := (withFused_live b).mpr (branches'.live wired)
  have outs : (g.withFused b pred cond).outs b = g.outs b := by
    rw [Graph.withFused, outs_altered Block.keepsWiring_beheaded, outs_altered (Block.keepsWiring_recond cond)]
  have turned (kind : EdgeKind) {target : BlockId} (run : g.targetOf kind b = .ok (some target)) :
      ((g.withFused b pred cond).joined b pred front').targetOf kind b = .ok (some (afterJoin b pred target)) := by
    have same : (g.withFused b pred cond).targetOf kind b = .ok (some target) := by rw [← run, targetOf, targetOf, outs]
    exact bare.targetOf_joined atFront live (fun same => absurd same.symm fusion.apart) (Ne.symm fusion.apart) same
  obtain ⟨joint, atJoint, stmts⟩ := fusion.joined_stmts atFront
  have read : ((g.withFused b pred cond).joined b pred front').condition? b =
      .ok (some (cond, afterJoin b pred whenTrue, afterJoin b pred whenFalse)) :=
    condition?_eq_ok.mpr ⟨⟨joint, atJoint, by simp [stmts]⟩, turned _ atTrue, turned _ atFalse⟩
  -- the second block runs no statements, so only the two conditions are left to compare
  have plain : block.stmts.dropLast = [] := by rw [fusion.single.1]; rfl
  have together := congrArg (afterJoin b pred <$> ·) (M.test_fused complementary fused)
  simp only [map_bind, map_pure, apply_ite (afterJoin b pred)] at together
  simp only [Graph.follow, block_eq_ok.mpr atJoint, read, stmts, List.dropLast_concat, bind_assoc, together]
  refine congrArg some (bind_congr fun _ => bind_congr fun holds => ?_)
  generalize (if holds = true then firstTrue else firstFalse) = next
  by_cases here : next = b <;> simp [here, plain, Semantics.execAll]

end Fusion

/-- Fusing two branches keeps what they do. Control that entered the first one ran its statements and evaluated its
condition, then perhaps the condition of the second one, and went on somewhere; control that enters the fused block
does the same and goes on there, where the first block is now called `b`. All other edges lead where they led. -/
theorem fuseBranches_keeps_branching (wired : g.Wired) (run : g.fuseBranches b = .ok (some g'))
    (complementary : M.Complementary) :
    (∃ pred before after, g.preds b = .ok [pred] ∧ g.follow M pred = some before ∧ g.follow M b = some after ∧
      g'.follow M b = some (do
        let next ← before
        return afterJoin b pred (← if next = b then after else pure next)) ∧
      ∀ e source target, g'.Joins e source target ↔
        source ≠ pred ∧ ∃ old, g.Joins e source old ∧ target = afterJoin b pred old) ∧
    ∀ e, M.test e.negate = (!·) <$> M.test e := by
  obtain ⟨pred, front, block, first, second, cond, front', fusion, atFront, rfl⟩ := wired.fuseBranches_some run
  obtain ⟨before, after, atPred, atBlock, fused⟩ := fusion.follow_joined wired atFront complementary
  obtain ⟨_, _, _, _, _, branches, _⟩ := fusion.front
  have live : (g.withFused b pred cond).Live b := (withFused_live b).mpr (branches.live wired)
  refine ⟨⟨pred, before, after, fusion.only, atPred, atBlock, fused, fun e source target => ?_⟩, M.test_negate complementary⟩
  exact (wired.withFused b pred cond).joined_joins atFront live (fun same => absurd same.symm fusion.apart) e source target

end Graph

def Value.number : Value Int → Int
  | truth holds => holds.toNat
  | data v => v

/-- Values are related as integers, where a truth value counts as 0 or 1. All variables are 0. -/
def Semantics.zeros : Semantics Unit Unit Int where
  compute e := match e with
    | .int v => pure (.data v)
    | _ => pure (.data 0)
  relate op x y := match op with
    | .eq => x.number == y.number
    | .ne => x.number != y.number
    | .lt => x.number < y.number
    | .ge => !decide (x.number < y.number)
    | .gt => y.number < x.number
    | .le => !decide (y.number < x.number)
    | _ => false
  perform _ := pure ()
  noTruth := ()

theorem Semantics.zeros_complementary : Semantics.zeros.Complementary := by
  intro op negated turned x y
  cases op <;> cases turned <;> simp only [zeros, bne, Bool.not_not]

namespace Graph

/-- Two blocks in a row that each may go back to the first one. -/
def retryEdits : List Edit := [.newBlock 0, .newBlock 1, .newBlock 2, .setConds 0 0 1, .setConds 1 2 0]

def retry : Checked Graph := do
  let g ← Edit.run (Graph.empty (MethodInfo.plain "retry" 2 2) []) retryEdits
  let g ← g.pushStmt 0 (.branch
    (.binary .or (.binary .lt (.var "a") (.int 0)) (.unary .not (.binary .eq (.var "b") (.int 1)))))
  g.pushStmt 1 (.branch (.binary .ne (.var "a") (.var "b")))

/-- The first condition is negated, and what went back to the first block goes back to the fused one. -/
theorem fuseBranches_keeps_branching_retry : ∃ g g', retry = .ok g ∧ g.Wired ∧ g.fuseBranches 1 = .ok (some g') ∧
    Semantics.zeros.Complementary ∧
    (∃ pred before after, g.preds 1 = .ok [pred] ∧ g.follow .zeros pred = some before ∧
      g.follow .zeros 1 = some after ∧
      g'.follow .zeros 1 = some (do
        let next ← before
        return afterJoin 1 pred (← if next = 1 then after else pure next)) ∧
      ∀ e source target, g'.Joins e source target ↔
        source ≠ pred ∧ ∃ old, g.Joins e source old ∧ target = afterJoin 1 pred old) ∧
    ∀ e, Semantics.zeros.test e.negate = (!·) <$> Semantics.zeros.test e := by
  have fuses : retry.toOption.any fun g => (g.fuseBranches 1).toOption.any Option.isSome := by decide +kernel
  obtain ⟨g, built, fuses⟩ := of_any_toOption fuses
  obtain ⟨fused, run, isSome⟩ := of_any_toOption fuses
  obtain ⟨g', rfl⟩ := Option.isSome_iff_exists.mp isSome
  have wired : g.Wired := by
    obtain ⟨g₀, edited, built⟩ := bind_eq_ok.mp built
    obtain ⟨g₁, first, second⟩ := bind_eq_ok.mp built
    have fit : Edit.AllFit (Graph.empty (MethodInfo.plain "retry" 2 2) []) retryEdits := by decide +kernel
    obtain ⟨_, edited', wired₀⟩ := fit.wired (Graph.empty_wired _ _)
    cases Except.ok.inj (edited.symm.trans edited')
    obtain ⟨_, rfl⟩ := modifyBlock_eq_ok.mp first
    obtain ⟨_, rfl⟩ := modifyBlock_eq_ok.mp second
    exact altered_wired (altered_wired wired₀ 0 (Block.keepsWiring_emit _)) 1 (Block.keepsWiring_emit _)
  exact ⟨g, g', built, wired, run, Semantics.zeros_complementary,
    fuseBranches_keeps_branching wired run Semantics.zeros_complementary⟩

end Graph

end Unstack
