import Unstack.Decompile
import Unstack.Proofs.Dataflow.Safe
import Unstack.Proofs.Recovery.Safe
import Unstack.Proofs.Region.Irreducible

namespace Unstack

/-- The analyses of a new graph meet no fault if the registers fit, whether or not they succeed. -/
theorem Graph.Built.analyse_total {m : MethodInput} {g : Graph} (ofMethod : g.Built m) (fits : m.info.Fits)
    (plan : Plan) : ∃ draft, g.analyse plan = .ok draft := by
  obtain ⟨outcome, g₁, solved, kept⟩ := ofMethod.solve_total fits plan.options
  simp only [Graph.analyse, solved, ok_bind]
  cases outcome with
  | error e => exact ⟨_, rfl⟩
  | ok u =>
    obtain ⟨wired₁, inside₁⟩ := kept rfl
    have sturdy₁ : Graph.Sturdy g₁.blocks.size g₁ := ⟨wired₁, rfl, inside₁⟩
    obtain ⟨count, g₂, removed, sturdy₂⟩ := sturdy₁.removeUnreachable
    obtain ⟨g₃, numbered, _⟩ := sturdy₂.wired.renumber (sturdy₂.lt sturdy₂.start)
    obtain ⟨renumbered, searched⟩ := sturdy₂.wired.searched numbered
    obtain ⟨outcome', draft, rebuilt, kept'⟩ := searched.reconstruct (renumbered.wired sturdy₂.wired) plan []
    simp only [removed, numbered, rebuilt, ok_bind]
    cases outcome' with
    | error e => exact ⟨_, rfl⟩
    | ok u' =>
      obtain ⟨wired', searched'⟩ := kept' rfl
      obtain ⟨found, notes, regions, _⟩ := searched'.findRegions wired'
      exact ⟨_, by simp only [regions, ok_bind]; rfl⟩

/-- A method that has a graph becomes what the analyses make of it. -/
theorem MethodInput.decompile_eq {input : MethodInput} {plan : Plan} {g : Graph} {draft : Draft}
    (run : (Graph.ofMethod input).run = .ok (.ok g)) (analysed : g.analyse plan = .ok draft) :
    input.decompile plan = .ok ⟨input.info.name, some draft.graph, draft.notes⟩ := by
  simp only [decompile, run, ok_bind, analysed]
  rfl

/-- Too many registers are met by the first analysis, so only a method without a graph gets past them. -/
theorem MethodInput.decompile_noRoom {input : MethodInput} {g : Graph} (run : (Graph.ofMethod input).run = .ok (.ok g))
    (large : ¬ input.info.Fits) (plan : Plan) : input.decompile plan = .error (.noRoom input.info.regs) := by
  simp only [decompile, run, ok_bind, Graph.analyse, ((Graph.ofMethod_yields input).of_run run).solve_noRoom large]
  rfl

/-- A method whose registers fit can be decompiled under every plan, and so can one without a graph: no name and no
index in any of the analyses stands for nothing. There is no graph exactly if its construction reports an error. The
only fault is that of a frame which is too large, and every method that has a graph and too many registers meets it. -/
theorem MethodInput.decompile_total (input : MethodInput) (plan : Plan) :
    (input.info.Fits ∨ (∃ e, (Graph.ofMethod input).run = .ok (.error e)) → ∃ d, input.decompile plan = .ok d ∧
      (d.graph = none ↔ ∃ e, (Graph.ofMethod input).run = .ok (.error e))) ∧
    (¬ input.info.Fits ∧ (∃ g, (Graph.ofMethod input).run = .ok (.ok g)) →
      input.decompile plan = .error (.noRoom input.info.regs)) := by
  obtain ⟨outcome, run, built⟩ := Graph.ofMethod_yields input
  constructor
  · intro either
    cases outcome with
    | error e => exact ⟨_, by simp only [decompile, run, ok_bind]; rfl, fun _ => ⟨e, run⟩, fun _ => rfl⟩
    | ok g =>
      have noError : ¬ ∃ e, (Graph.ofMethod input).run = .ok (.error e) := by
        rintro ⟨e, failed⟩
        cases run.ok_unique failed
      obtain ⟨draft, analysed⟩ := (built g rfl).analyse_total (either.resolve_right noError) plan
      refine ⟨_, decompile_eq run analysed, fun absent => ?_, fun failed => absurd failed noError⟩
      cases absent
  · rintro ⟨large, g, run⟩
    exact decompile_noRoom run large plan

/-- A method that only returns, with as many registers as can be declared. -/
def MethodInput.boundless : MethodInput where
  info := MethodInfo.plain "f" 18446744073709551615 0
  ops := [⟨0, 0, -1, .leave .void⟩]
  exceptions := []

theorem MethodInput.decompile_boundless : (∃ g, (Graph.ofMethod boundless).run = .ok (.ok g)) ∧
    boundless.decompile ⟨.none, {}⟩ = .error (.noRoom 18446744073709551615) := by
  obtain ⟨g, run⟩ := Building.run_of_result (show (Graph.ofMethod boundless).result?.isSome by decide +kernel)
  exact ⟨⟨g, run⟩, decompile_noRoom run (by decide) _⟩

end Unstack
