import Unstack.Proofs.Dataflow.Returns
import Unstack.Proofs.Dataflow.Solution
import Unstack.Proofs.Decompile
import Unstack.Proofs.Graph.Postorder
import Unstack.Proofs.Recovery.Turn

namespace Unstack

namespace Graph

/-- How the graph that is reconstructed comes from the one of the method: it is analysed, blocks that are not reached
are taken out, and the others are numbered. -/
structure Prepares (built last ready : Graph) (dead : List BlockId) : Prop where
  analysed : Extends built last
  unreached (i : BlockId) : i ∈ dead ↔ last.countValues.Live i ∧ ¬ last.countValues.Reachable i
  numbered : (last.countValues.withoutBlocks dead).renumber = .ok ready

namespace Prepares

variable {m : MethodInput} {built last ready : Graph} {dead : List BlockId} {i : BlockId}

section

variable (prepares : Prepares built last ready dead)

include prepares

theorem wired : (last.countValues.withoutBlocks dead).Wired := prepares.analysed.wired.countValues.1.withoutBlocks dead

theorem renumbered : Renumbered (last.countValues.withoutBlocks dead) ready := (prepares.wired.searched prepares.numbered).1

theorem searched : ready.Searched := (prepares.wired.searched prepares.numbered).2

theorem sturdy : Sturdy ready.size ready :=
  ⟨prepares.renumbered.wired prepares.wired, rfl, prepares.searched.inside⟩

theorem reached (live : ready.Live i) : ready.Reachable i := by
  have ⟨used, kept⟩ := (withoutBlocks_live dead i).mp ((prepares.renumbered.live_iff i).mp live)
  have known : last.countValues.Reachable i := by
    by_contra lost
    exact kept ((prepares.unreached i).mpr ⟨used, lost⟩)
  refine (prepares.renumbered.reachable_iff i).mpr (prepares.analysed.wired.countValues.1.reachable_withoutBlocks ?_ known)
  exact fun i lost => ((prepares.unreached i).mp lost).2

variable (ofMethod : built.Built m)

include ofMethod

theorem laid : last.Laid m := ofMethod.toLaid.congr prepares.analysed.toSameCode

/-- Blocks hold what they held in the graph of the method, with operations that count values. -/
theorem content {c : Content} (found : ready.contentOf i = some c) :
    ∃ block, last.blocks[i]? = some block ∧ built.contentOf i = some block.content ∧
      c = { block.content with ops := block.ops.map last.counted } := by
  rw [prepares.renumbered.contentOf, contentOf_withoutBlocks] at found
  obtain ⟨counted, atCounted, rfl⟩ := Option.map_eq_some_iff.mp found
  obtain ⟨block, atBlock, rfl⟩ := (countValues_block (prepares.laid ofMethod)).mp atCounted
  exact ⟨block, atBlock, (prepares.analysed.content i).symm.trans (contentOf_eq atBlock), rfl⟩

end

/-- Before the reconstruction no block has statements or a stack. -/
theorem raw (prepares : Prepares built last ready dead) (run : (Graph.ofMethod m).run = .ok (.ok built)) {c : Content}
    (found : ready.contentOf i = some c) : c.stmts = [] ∧ c.stack = [] ∧ c.unreconstructed = false := by
  have ofMethod := (ofMethod_yields m).of_run run
  obtain ⟨block, _, atBuilt, rfl⟩ := prepares.content ofMethod found
  obtain ⟨old, atOld, same⟩ := Option.map_eq_some_iff.mp atBuilt
  rw [← same]
  exact ofMethod.raw i old atOld

end Prepares

theorem Built.prepares {m : MethodInput} {g g₁ g₂ g₃ : Graph} {options : Options} {count : Nat} (ofMethod : g.Built m)
    (solved : g.solve options = .ok (.ok (), g₁)) (removed : g₁.removeUnreachable = .ok (count, g₂))
    (numbered : g₂.renumber = .ok g₃) : ∃ last dead, Prepares g last g₃ dead := by
  obtain ⟨last, analysed, ⟨_, rfl⟩ | ⟨⟨_, failed⟩, _⟩⟩ := ofMethod.solve_extends solved
  · obtain ⟨wired, start, size⟩ := analysed.wired.countValues
    have inside : last.countValues.start < last.countValues.size := by
      obtain ⟨block, found, _⟩ := ofMethod.start
      obtain ⟨new, found', _⟩ := analysed.toSameCode.block found
      rw [start, size, analysed.start]
      exact found'.lt_size
    obtain ⟨dead, removed', unreached⟩ := wired.removeUnreachable_eq inside
    cases removed.ok_unique removed'
    exact ⟨last, dead, analysed, unreached, numbered⟩
  · cases failed

/-- Every run of the analyses: one that ends before the reconstruction leaves an extended graph; otherwise the
reconstruction is followed by a search for regions if it succeeds. -/
theorem Built.analyse_eq_ok {m : MethodInput} {g : Graph} {plan : Plan} {draft : Draft} (ofMethod : g.Built m)
    (run : g.analyse plan = .ok draft) :
    (Extends g draft.graph ∧ ∃ e, g.solve plan.options = .ok (.error e, draft.graph)) ∨
    ∃ last ready dead outcome d, Prepares g last ready dead ∧ ready.reconstruct plan [] = .ok (outcome, d) ∧
      ((∃ e, outcome = .error e ∧ draft = ⟨d.graph, d.notes ++ [.ofError e]⟩) ∨
        outcome = .ok () ∧ ∃ regions notes, draft = ⟨{ d.graph with regions }, d.notes ++ notes⟩) := by
  obtain ⟨⟨outcome, g₁⟩, solved, run⟩ := bind_eq_ok.mp run
  cases outcome with
  | error e =>
    obtain ⟨last, analysed, ⟨succeeded, _⟩ | ⟨_, rfl⟩⟩ := ofMethod.solve_extends solved
    · cases succeeded
    · cases run
      exact .inl ⟨analysed, e, solved⟩
  | ok u =>
    obtain ⟨⟨count, g₂⟩, removed, run⟩ := bind_eq_ok.mp run
    obtain ⟨g₃, numbered, run⟩ := bind_eq_ok.mp run
    obtain ⟨⟨outcome, d⟩, rebuilt, run⟩ := bind_eq_ok.mp run
    obtain ⟨last, dead, prepares⟩ := ofMethod.prepares solved removed numbered
    refine .inr ⟨last, g₃, dead, outcome, d, prepares, rebuilt, ?_⟩
    cases outcome with
    | error e =>
      cases run
      exact .inl ⟨e, rfl, rfl⟩
    | ok u =>
      obtain ⟨⟨found, notes⟩, regions, run⟩ := bind_eq_ok.mp run
      cases run
      obtain ⟨_, _, regions⟩ := bind_eq_ok.mp regions
      obtain ⟨_, _, regions⟩ := bind_eq_ok.mp regions
      obtain ⟨_, _, regions⟩ := bind_eq_ok.mp regions
      obtain ⟨_, _, regions⟩ := bind_eq_ok.mp regions
      obtain ⟨_, _, regions⟩ := bind_eq_ok.mp regions
      cases regions
      exact .inr ⟨rfl, _, _, rfl⟩

end Graph

end Unstack
