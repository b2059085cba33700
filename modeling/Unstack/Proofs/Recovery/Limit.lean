import Unstack.Proofs.Recovery.Complete

namespace Unstack

namespace Graph

/-- `count` folds, one after the other. -/
inductive Successive (fold : Graph → Checked (Option Graph)) : Nat → Graph → Graph → Prop where
  | none (g : Graph) : Successive fold 0 g g
  | next {count : Nat} {g g' last : Graph} : fold g = .ok (some g') → Successive fold count g' last →
    Successive fold (count + 1) g last

variable {n : Nat} {g g' : Graph} {b : BlockId}

/-- Folds that take a block out each are at most as many as there are blocks in use. -/
theorem Successive.liveCount {fold : Graph → Checked (Option Graph)} {count : Nat}
    (folds : Successive fold count g g') (sturdy : Sturdy n g)
    (keeps : ∀ g g', Sturdy n g → fold g = .ok (some g') → Sturdy n g' ∧ g'.liveCount < g.liveCount) :
    g'.liveCount + count ≤ g.liveCount := by
  induction folds with
  | none g => exact Nat.le_refl _
  | next run _ ih =>
    obtain ⟨sturdy', fewer⟩ := keeps _ _ sturdy run
    have rest := ih sturdy'
    omega

theorem Sturdy.foldConditional_fewer (sturdy : Sturdy n g) (run : g.foldConditional b = .ok (some g')) :
    Sturdy n g' ∧ g'.liveCount < g.liveCount := by
  have step : Draft.Step ⟨.none, {}⟩ ⟨g, []⟩ ⟨g', []⟩ := .conditional run
  exact ⟨step.sturdy sturdy, sturdy.wired.foldConditional_live run⟩

theorem Sturdy.fuseBranches_fewer (sturdy : Sturdy n g) (run : g.fuseBranches b = .ok (some g')) :
    Sturdy n g' ∧ g'.liveCount < g.liveCount := by
  have step : Draft.Step ⟨.none, {}⟩ ⟨g, []⟩ ⟨g', []⟩ := .fuse run
  exact ⟨step.sturdy sturdy, sturdy.wired.fuseBranches_live run⟩

end Graph

namespace Draft

open Unstack.Graph

variable {n : Nat} {plan : Plan} {b : BlockId} {d : Draft}

/-- The step gives something, and every name in the graph that it leaves stands for something. -/
abbrev Settles {α : Type} (n : Nat) (x : Drafting α) (d : Draft) : Prop :=
  Ensures x d fun outcome d' => ∃ a, outcome = .ok a ∧ Sturdy n d'.graph

theorem foldAll_settles {fold : Graph → BlockId → Checked (Option Graph)}
    (keeps : ∀ g g', Sturdy n g → fold g b = .ok (some g') → Sturdy n g' ∧ g'.liveCount < g.liveCount) (pass : Pass)
    (sturdy : Sturdy n d.graph) : Settles n (foldAll pass plan fold b) d :=
  .get_bind (exhaust_ends (fun d g' => keeps d.graph g') _ _ _ sturdy (Nat.le_max_right _ _))

theorem giveUp_settles (sturdy : Sturdy n d.graph) : Settles n (giveUp b) d := by
  refine .get_bind (.lift_bind fun block found => .lift_bind fun g changed => ?_)
  obtain ⟨_, rfl⟩ := modifyBlock_eq_ok.mp changed
  exact .modify ⟨(), rfl, sturdy.altered Block.keepsWiring_givenUp⟩

/-- The work on a block comes to an end whatever the block holds. -/
theorem recover_settles (sturdy : Sturdy n d.graph) : Settles n (recover plan b) d := by
  have fuse {d : Draft} (sturdy : Sturdy n d.graph) : Settles n (foldAll .shortCircuit plan Graph.fuseBranches b) d :=
    foldAll_settles (fun _ _ kept run => kept.fuseBranches_fewer run) _ sturdy
  refine .get_bind (.lift_bind fun block found => ?_)
  split
  · exact .pure ⟨(), rfl, sturdy⟩
  refine (foldAll_settles (fun _ _ kept run => kept.foldConditional_fewer run) .conditional sturdy).bind_ok
    fun _ d₁ sturdy₁ => .get_bind (.lift_bind fun converted run => ?_)
  obtain ⟨complete, d₂⟩ := converted
  have sturdy₂ := (Turn.steps (convert_turns sturdy₁ run).1).sturdy sturdy₁
  refine .set_bind ?_
  cases complete with
  | true => exact fuse sturdy₂
  | false =>
    refine .lift_bind fun folded ran => ?_
    cases folded with
    | some g =>
      have step : Step plan d₂ { d₂ with graph := g } := .cached ran
      exact .modify ⟨(), rfl, step.sturdy sturdy₂⟩
    | none => exact (giveUp_settles sturdy₂).bind_ok fun _ d₃ sturdy₃ => fuse sturdy₃

end Draft

namespace Graph

/-- Whatever the blocks hold and whatever the limit is, the reconstruction never reaches it. -/
theorem Sturdy.reconstruct_ok {n : Nat} {g : Graph} (sturdy : Sturdy n g) (listed : ∀ b ∈ g.postorder, b < n)
    (plan : Plan) (notes : List Diagnostic) : ∃ d, g.reconstruct plan notes = .ok (.ok (), d) := by
  have work : Ensures (do
      g.reversePostorder.forM (Draft.recover plan)
      Draft.setGraph (← (← Draft.getGraph).renumber)) ⟨g, notes⟩ fun outcome _ => outcome = .ok () := by
    have all : Draft.Settles n (g.reversePostorder.forM (Draft.recover plan)) ⟨g, notes⟩ :=
      Ensures.forM_ok (fun _ (d : Draft) => Sturdy n d.graph) sturdy fun b _ d sturdy' => Draft.recover_settles sturdy'
    exact all.bind_ok fun _ d _ => .get_bind (.lift_bind fun g' _ => .modify rfl)
  obtain ⟨outcome, d, run, _⟩ := sturdy.reconstruct listed plan notes
  exact ⟨d, by rw [run, work outcome d run]⟩

/-- No limit on folds is ever reached. On every graph whose lists of edges mirror its edges, each fold takes a block
out of use, so that there are at most as many folds at a block as blocks in use; and if the start and what is listed
name blocks, the reconstruction succeeds whatever the resolver and the options are. -/
theorem reconstruct_within_limit {g : Graph} (wired : g.Wired) :
    (∀ b g', g.foldConditional b = .ok (some g') → g'.liveCount < g.liveCount) ∧
    (∀ b g', g.fuseBranches b = .ok (some g') → g'.liveCount < g.liveCount) ∧
    (g.start < g.size →
      (∀ b count g', Successive (foldConditional · b) count g g' ∨ Successive (fuseBranches · b) count g g' →
        count ≤ g.liveCount) ∧
      ((∀ b ∈ g.postorder, b < g.size) → ∀ plan notes, ∃ d, g.reconstruct plan notes = .ok (.ok (), d))) := by
  refine ⟨fun b g' => wired.foldConditional_live, fun b g' => wired.fuseBranches_live, fun inside => ?_⟩
  have sturdy : Sturdy g.size g := ⟨wired, rfl, inside⟩
  refine ⟨?_, sturdy.reconstruct_ok⟩
  rintro b count g' (folds | folds)
  · exact Nat.le_of_add_left_le (folds.liveCount sturdy fun _ _ kept run => kept.foldConditional_fewer run)
  · exact Nat.le_of_add_left_le (folds.liveCount sturdy fun _ _ kept run => kept.fuseBranches_fewer run)

def chosen : MethodInput where
  info := { MethodInfo.plain "chosen" 1 1 with result := .int }
  ops := [⟨0, 0, -1, .load .int 0⟩, ⟨0, 0, -1, .jumpZero .int .eq 4⟩, ⟨0, 0, -1, .push .int (.int 1)⟩, ⟨0, 0, -1, .goto 5⟩,
    ⟨0, 0, -1, .push .int (.int 2)⟩, ⟨0, 0, -1, .leave .int⟩]
  exceptions := []

/-- Four blocks become one although no folds are allowed by the options. -/
theorem reconstruct_within_limit_chosen : ∃ before g d, (Graph.ofMethod chosen).run = .ok (.ok before) ∧
    before.renumber = .ok g ∧ g.Wired ∧ g.liveCount = 4 ∧
    g.reconstruct ⟨.none, { maxFolds := 0 }⟩ [] = .ok (.ok (), d) ∧ d.graph.liveCount = 1 := by
  obtain ⟨before, built⟩ := Building.run_of_result (show (Graph.ofMethod chosen).result?.isSome by decide +kernel)
  have counts : (Graph.ofMethod chosen).result?.any fun before => before.renumber.toOption.any fun g =>
      g.liveCount = 4 ∧ (g.reconstruct ⟨.none, { maxFolds := 0 }⟩ []).toOption.any fun r =>
        r.2.graph.liveCount = 1 := by decide +kernel
  rw [show (Graph.ofMethod chosen).result? = some before by simp [Building.result?, built], Option.any_some] at counts
  obtain ⟨g, numbered, counts⟩ := of_any_toOption counts
  obtain ⟨four, one⟩ := of_decide_eq_true counts
  obtain ⟨⟨outcome, d⟩, rebuilt, one⟩ := of_any_toOption one
  have wired := ((Graph.ofMethod_yields chosen).of_run built).wired
  obtain ⟨renumbered, searched⟩ := wired.searched numbered
  have wired' := renumbered.wired wired
  obtain ⟨d', rebuilt'⟩ := ((reconstruct_within_limit wired').2.2 searched.inside).2
    (fun b member => wired'.reachable_lt searched.inside ((searched.listed b).mp member)) ⟨.none, { maxFolds := 0 }⟩ []
  cases rebuilt.symm.trans rebuilt'
  exact ⟨before, g, d, built, numbered, wired', four, rebuilt, of_decide_eq_true one⟩

/-- A graph without blocks has no start, so that it cannot be numbered after the work on its blocks. -/
theorem reconstruct_needs_start : (Graph.empty (MethodInfo.plain "none" 0 0) []).Wired ∧
    ¬ ∃ outcome d, (Graph.empty (MethodInfo.plain "none" 0 0) []).reconstruct ⟨.none, {}⟩ [] = .ok (outcome, d) := by
  refine ⟨Graph.empty_wired _ _, ?_⟩
  rintro ⟨outcome, d, run⟩
  have fails : ((Graph.empty (MethodInfo.plain "none" 0 0) []).reconstruct ⟨.none, {}⟩ []).toOption.isNone := by
    decide +kernel
  rw [run] at fails
  cases fails

end Graph

end Unstack
