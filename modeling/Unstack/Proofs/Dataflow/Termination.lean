import Unstack.Proofs.Dataflow.Progress
import Unstack.Proofs.Dataflow.Returns

namespace Unstack

namespace Solver

open Unstack.Graph

theorem preserved_true : Preserved fun _ => True where
  withFrame _ _ := id
  withReturn _ _ _ _ _ := fun kept _ => kept
  renumbered _ _ := trivial

/-- With enough rounds the analysis comes to an end from here. -/
def Ends (s : Solver) : Prop :=
  ∃ enough, ∀ limit left, enough ≤ left → Ensures (rounds limit left) s fun outcome _ => ∀ e, outcome = .error e → e.isFlow

variable {m : MethodInput} {built : Graph} {s : Solver}

/-- If every state that a round leaves with a change has an end ahead, one round more is enough. -/
theorem Ends.of_round {good : Bool → Solver → Prop} (safe : Safe round s good)
    (next : ∀ s', Runs round s true s' → Ends s') : Ends s := by
  obtain ⟨outcome, s', ran, _⟩ := safe
  have later : ∃ enough, ∀ limit left, enough ≤ left → Ensures (rounds limit (left + 1)) s fun outcome _ =>
      ∀ e, outcome = .error e → e.isFlow := by
    cases outcome with
    | error e =>
      have flow := (Stays.round preserved_true trivial (.error e) s' ran).2 e rfl
      exact ⟨0, fun _ _ _ => .bind_error ran fun _ same => Except.error.inj same ▸ flow⟩
    | ok changed =>
      cases changed with
      | false => exact ⟨0, fun _ _ _ => .bind_run ran (.pure nofun)⟩
      | true =>
        obtain ⟨enough, ends⟩ := next s' ran
        exact ⟨enough, fun limit left bound => .bind_run ran (ends limit left bound)⟩
  obtain ⟨enough, ends⟩ := later
  refine ⟨enough + 1, fun limit left bound => ?_⟩
  obtain ⟨left, rfl⟩ := Nat.exists_eq_add_of_le' (Nat.le_trans (Nat.le_add_left 1 enough) bound)
  exact ends limit left (Nat.le_of_add_le_add_right bound)

/-- By induction on what is left to find. A round that finds nothing is followed by one that starts with the frames
inside all blocks up to date, and that one finds something or reports no change. -/
theorem ends_of_steady (ofMethod : built.Built m) (steady : Steady m built s.graph) : Ends s := by
  induction same : s.graph.remaining m built using WellFoundedLT.induction generalizing s with
  | ind left ih =>
    have settled {s' : Solver} (steady' : Steady m built s'.graph) (le : s'.graph.remaining m built ≤ left)
        (all : AllSettled built s') : Ends s' := by
      refine .of_round (round_safe ofMethod steady') fun s'' run => ?_
      rcases round_progress ofMethod steady' run with less | ⟨_, _, notAll⟩
      · exact ih _ (less.trans_le le) ((round_safe ofMethod steady').of_run run) rfl
      · exact absurd all notAll
    refine .of_round (round_safe ofMethod steady) fun s' run => ?_
    have steady' : Steady m built s'.graph := (round_safe ofMethod steady).of_run run
    rcases round_progress ofMethod steady run with less | ⟨le, all, _⟩
    · exact ih _ (same ▸ less) steady' rfl
    · exact settled steady' (same ▸ le) all

end Solver

namespace Graph

/-- The analysis of every method terminates: there is a number of rounds with which it never stops for lack of rounds.
It succeeds then, or it reports an error in what flows through the method; without room for the registers it does not
even begin. -/
theorem solve_terminates {m : MethodInput} {g : Graph} (run : (Graph.ofMethod m).run = .ok (.ok g)) :
    ∃ enough, ∀ options : Options, enough ≤ options.maxRounds →
      (m.info.Fits → ∃ outcome g', g.solve options = .ok (outcome, g') ∧ ∀ e, outcome = .error e → e.isFlow) ∧
      (¬ m.info.Fits → g.solve options = .error (.noRoom m.info.regs)) := by
  have ofMethod := (ofMethod_yields m).of_run run
  obtain ⟨first, found, _⟩ := ofMethod.start
  have inside := ofMethod.toLaid.pc_lt found
  have only (options : Options) (ensures : Ensures (g.analysis options) ⟨g, false, false⟩ fun outcome _ =>
      ∀ e, outcome = .error e → e.isFlow) :
      (m.info.Fits → ∃ outcome g', g.solve options = .ok (outcome, g') ∧ ∀ e, outcome = .error e → e.isFlow) ∧
      (¬ m.info.Fits → g.solve options = .error (.noRoom m.info.regs)) := by
    refine ⟨fun fits => ?_, fun large => ofMethod.solve_noRoom large options⟩
    obtain ⟨outcome, g', solved, _⟩ := ofMethod.solve_total fits options
    obtain ⟨_, last, analysed, _⟩ := solve_eq_ok.mp solved
    exact ⟨outcome, g', solved, ensures outcome last analysed⟩
  cases started : g.info.startFrame with
  | error cause =>
    refine ⟨0, fun options _ => only options ?_⟩
    rw [analysis, started]
    exact .bind_error rfl fun e same => Except.error.inj same ▸ AnalysisError.isFlow_ofFrame 0 cause
  | ok params =>
    -- no frame is known before the first one arrives
    have unknown : g.frames[first.pc]? = some none := by
      rw [ofMethod.frames, Array.getElem?_replicate, if_pos inside]
    have arrived : Solver.Runs (Solver.arrive first.pc params) ⟨g, false, false⟩ ()
        (Solver.stored ⟨g, false, false⟩ first.pc params) := by
      unfold Solver.arrive
      simp only [Solver.runs_bind, Solver.runs_getGraph, Solver.runs_lift, Solver.frameAt_eq_ok]
      exact ⟨_, _, ⟨rfl, rfl⟩, none, _, ⟨unknown, rfl⟩,
        Solver.runs_store.mpr ⟨(Array.getElem?_eq_some_iff.mp unknown).1, rfl⟩⟩
    have steady := (Steady.initial ofMethod).withFrame ofMethod inside (.of_start started m)
    obtain ⟨enough, ends⟩ := Solver.ends_of_steady (s := Solver.stored ⟨g, false, false⟩ first.pc params) ofMethod steady
    refine ⟨enough, fun options bound => only options ?_⟩
    refine .bind_run (Solver.runs_liftFrame.mpr ⟨started, rfl⟩) ?_
    refine .bind_run (Solver.runs_lift.mpr ⟨block_eq_ok.mpr found, rfl⟩) (.bind_run arrived ?_)
    refine (ends options.maxRounds options.maxRounds bound).bind (fun _ _ _ => .modify fun _ same => ?_) fun _ _ flow _ same =>
      flow _ (Except.error.inj same ▸ rfl)
    cases same

theorem solve_terminates_cleanup : ∃ g, (Graph.ofMethod cleanup).run = .ok (.ok g) ∧
    ∃ enough, ∀ options : Options, enough ≤ options.maxRounds →
      ∃ outcome g', g.solve options = .ok (outcome, g') ∧ ∀ e, outcome = .error e → e.isFlow := by
  obtain ⟨g, run⟩ := Building.run_of_result (show (Graph.ofMethod cleanup).result?.isSome by decide +kernel)
  obtain ⟨enough, ends⟩ := solve_terminates run
  exact ⟨g, run, enough, fun options bound => (ends options bound).1 (by decide)⟩

end Graph

end Unstack
