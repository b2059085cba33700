import Unstack.Proofs.Dominator.Immediate
import Unstack.Proofs.Graph.Cycle
import Unstack.Proofs.Region.CaseOrder
import Unstack.Region.Find

namespace Unstack

/-- The message is a warning about an irreducible loop. -/
def Diagnostic.tellsIrreducible (d : Diagnostic) : Bool :=
  d.severity == .warning && "irreducible loop".toList.isPrefixOf d.message.toList

namespace View

variable {n : Nat} {notes : List Diagnostic}

theorem irreducibleNote_tells (v : View n) (arc : Arc n) : (v.irreducibleNote arc).tellsIrreducible = true := by
  simp [irreducibleNote, warn, Diagnostic.warning, Diagnostic.tellsIrreducible, String.toList_append]

/-- Notes of which none is about an irreducible loop. -/
def Quiet (notes : List Diagnostic) : Prop := ∀ note ∈ notes, note.tellsIrreducible = false

theorem quiet_nil : Quiet [] := by simp [Quiet]

theorem quiet_warn (v : View n) (b : Fin n) {message : String}
    (other : "irreducible loop".toList.isPrefixOf message.toList = false) : Quiet [v.warn b message] := by
  intro note member
  rw [List.mem_singleton.mp member]
  simp only [warn, Diagnostic.warning, Diagnostic.tellsIrreducible, other, Bool.and_false]

theorem condRegion_quiet (v : View n) (head whenTrue whenFalse : Fin n) :
    Quiet (v.condRegion head whenTrue whenFalse).2 := by
  simp only [condRegion]
  generalize (v.isBefore whenFalse whenTrue || v.isBefore whenTrue head) = negated
  generalize (if negated = true then (whenFalse, whenTrue) else (whenTrue, whenFalse)) = branches
  split
  · exact quiet_nil
  · split
    · exact quiet_nil
    · split
      · exact quiet_nil
      · exact v.quiet_warn head (by decide)

theorem loopTest_quiet (v : View n) (head : Fin n) (body : LoopBody n) : Quiet (v.loopTest head body).2 := by
  unfold loopTest
  split
  · exact quiet_nil
  · exact quiet_nil
  · exact quiet_nil
  · split
    · exact quiet_nil
    · split
      · exact quiet_nil
      · exact v.quiet_warn head (by decide)

theorem loopRegion_quiet (v : View n) (head : Fin n) : Quiet (v.loopRegion head).2 :=
  v.loopTest_quiet head (v.loopBody head)

/-- The search for regions goes on from some findings without a failure, and what it has to tell besides is
not about irreducible loops. -/
def Continues (search : Checked Findings) (f : Findings) : Prop :=
  ∃ f' notes, search = .ok f' ∧ f'.notes = f.notes ++ notes ∧ Quiet notes

theorem continues_self (f : Findings) : Continues (.ok f) f := ⟨f, [], rfl, (List.append_nil _).symm, quiet_nil⟩

theorem continues_add (f : Findings) (region : Region) (quiet : Quiet notes) :
    Continues (.ok (f.add region notes)) f := ⟨_, notes, rfl, rfl, quiet⟩

theorem Continues.after {search : Checked Findings} {f : Findings} {region : Region}
    (continues : Continues search (f.add region notes)) (quiet : Quiet notes) : Continues search f := by
  obtain ⟨f', later, run, appended, quiet'⟩ := continues
  refine ⟨f', notes ++ later, run, ?_, List.forall_mem_append.mpr ⟨quiet, quiet'⟩⟩
  rw [appended, Findings.add, List.append_assoc]

theorem findInner_continues (v : View n) (b : Fin n) (f : Findings) : Continues (v.findInner b f) f := by
  unfold findInner
  split
  · exact continues_add f _ quiet_nil
  · split
    · obtain ⟨region, run⟩ := v.switchRegion_total b
      rw [run]
      exact continues_add f _ quiet_nil
    · split
      · rename_i whenTrue whenFalse _
        split
        · exact continues_self f
        · exact continues_add f _ (v.condRegion_quiet b whenTrue whenFalse)
      · exact continues_self f

/-- The search at a head does not warn of irreducible loops. -/
theorem findAt_continues (v : View n) (b : Fin n) (f : Findings) : Continues (v.findAt b f) f := by
  unfold findAt
  split
  · exact continues_self f
  · split
    · simp only
      split
      · exact continues_add f _ (v.loopRegion_quiet b)
      · exact (v.findInner_continues b _).after (v.loopRegion_quiet b)
    · exact v.findInner_continues b f

theorem findAll_continues (v : View n) (order : List (Fin n)) (f : Findings) :
    Continues (order.foldlM (fun f b => v.findAt b f) f) f := by
  induction order generalizing f with
  | nil => exact continues_self f
  | cons b rest ih =>
    obtain ⟨f', notes, run, appended, quiet⟩ := v.findAt_continues b f
    obtain ⟨last, later, runs, appended', quiet'⟩ := ih f'
    refine ⟨last, notes ++ later, by rw [List.foldlM_cons, run, ok_bind, runs], ?_,
      List.forall_mem_append.mpr ⟨quiet, quiet'⟩⟩
    rw [appended', appended, List.append_assoc]

end View

namespace Graph

variable {g : Graph}

/-- The arcs that go back are the edges that the search has marked. -/
theorem Reflects.mem_backArcs {f : Flow g.size} (reflects : g.Reflects f) (arc : Arc g.size) :
    arc ∈ (View.mk f g.blocks.toVector).backArcs → ∃ edge, g.edges[arc.edge]? = some edge ∧ edge.back = true ∧
      edge.source = arc.source ∧ edge.target = arc.target := by
  intro member
  obtain ⟨b, _, member⟩ := List.mem_flatMap.mp member
  split at member
  · cases member
  · obtain ⟨leaves, back⟩ := List.mem_filter.mp member
    obtain ⟨edge, found, _, atSource, atTarget, _, marked⟩ := reflects.out_shows b arc leaves
    exact ⟨edge, found, marked.trans back, atSource, atTarget⟩

theorem Reflects.exists_backArc {f : Flow g.size} (reflects : g.Reflects f) (wired : g.Wired) {e : EdgeId} {edge : Edge}
    (found : g.edges[e]? = some edge) (used : edge.removed = false) (back : edge.back = true) :
    ∃ arc ∈ (View.mk f g.blocks.toVector).backArcs, edge.source = arc.source ∧ edge.target = arc.target := by
  have joins : g.Joins e edge.source edge.target := ⟨edge, found, used, rfl, rfl⟩
  obtain ⟨⟨block, atSource, live⟩, _⟩ := wired.ends_live _ _ _ joins
  have inside : edge.source < g.size := atSource.lt_size
  have leaves := (wired.mem_outs edge.source e).mpr ⟨_, joins⟩
  rw [← reflects.outs ⟨edge.source, inside⟩] at leaves
  obtain ⟨arc, member, rfl⟩ := List.mem_map.mp leaves
  obtain ⟨edge', found', _, source, target, _, marked⟩ := reflects.out_shows _ arc member
  cases found.some_unique found'
  refine ⟨arc, List.mem_flatMap.mpr ⟨⟨edge.source, inside⟩, List.mem_finRange _, ?_⟩, source, target⟩
  have kept : ((View.mk f g.blocks.toVector).block ⟨edge.source, inside⟩).removed = false := by
    rw [payload_found ⟨edge.source, inside⟩] at atSource
    cases atSource
    exact live
  rw [if_neg (by simp [kept])]
  exact List.mem_filter.mpr ⟨member, marked.symm.trans back⟩

/-- The search for regions succeeds after a search in depth, and warns about irreducible loops if the target
of some back edge does not dominate its source. -/
theorem Searched.findRegions (searched : g.Searched) (wired : g.Wired) :
    ∃ found notes, g.findRegions = .ok (found, notes) ∧ found = { g with regions := found.regions } ∧
      ((∃ note ∈ notes, note.tellsIrreducible = true) ↔
        ∃ (e : EdgeId) (edge : Edge), g.edges[e]? = some edge ∧ edge.back = true ∧
          ¬ g.Dominates edge.target edge.source) := by
  obtain ⟨f, idoms, flowed, reflects, tabled, resolved⟩ := searched.dominators wired
  obtain ⟨order, listed, _⟩ := searched.surveyed wired reflects
  have dominates_iff := reflects.dominates_iff wired searched.inside
  have answers (arc : Arc g.size) (member : arc ∈ (View.mk f g.blocks.toVector).backArcs) :
      ∃ r, Flow.dominates idoms arc.target arc.source = .ok r ∧ (r = true ↔ g.Dominates arc.target arc.source) := by
    obtain ⟨edge, found, back, atSource, _⟩ := reflects.mem_backArcs arc member
    obtain ⟨_, _, _, trail, _⟩ := searched.back _ edge found back
    have reached : g.Reachable arc.source := atSource ▸ trail.reaches
    obtain ⟨r, run, answer⟩ := resolved.dominates arc.target arc.source
      ((reflects.reachable_iff wired searched.inside _).mpr reached)
    exact ⟨r, run, answer.trans (dominates_iff _ _)⟩
  let outside (arc : Arc g.size) : Checked Bool := do return !(← Flow.dominates idoms arc.target arc.source)
  have tested (arc : Arc g.size) (member : arc ∈ (View.mk f g.blocks.toVector).backArcs) : ∃ r, outside arc = .ok r := by
    obtain ⟨r, run, _⟩ := answers arc member
    exact ⟨!r, by simp only [outside, run]; rfl⟩
  obtain ⟨bad, filtered, bad_iff⟩ := filterM_total tested
  obtain ⟨last, notes, run, appended, quiet⟩ := (View.mk f g.blocks.toVector).findAll_continues order
    ⟨[], bad.map (View.mk f g.blocks.toVector).irreducibleNote⟩
  refine ⟨{ g with regions := last.regions }, last.notes, ?_, rfl, ?_⟩
  · simp only [Graph.findRegions, Graph.view, flowed, ok_bind, tabled, listed]
    change ((View.mk f g.blocks.toVector).irreducible idoms >>= _) = _
    rw [View.irreducible, filtered, ok_bind, run]
    rfl
  · have told : (∃ note ∈ last.notes, note.tellsIrreducible = true) ↔ ∃ arc, arc ∈ bad := by
      rw [appended]
      constructor
      · intro some
        obtain ⟨note, member, tells⟩ := some
        rcases List.mem_append.mp member with early | later
        · obtain ⟨arc, isBad, _⟩ := List.mem_map.mp early
          exact ⟨arc, isBad⟩
        · rw [quiet note later] at tells
          cases tells
      · intro some
        obtain ⟨arc, isBad⟩ := some
        exact ⟨_, List.mem_append_left _ (List.mem_map_of_mem isBad), View.irreducibleNote_tells _ arc⟩
    rw [told]
    constructor
    · intro some
      obtain ⟨arc, isBad⟩ := some
      obtain ⟨member, test⟩ := (bad_iff arc).mp isBad
      obtain ⟨r, run, answer⟩ := answers arc member
      obtain ⟨edge, found, back, atSource, atTarget⟩ := reflects.mem_backArcs arc member
      refine ⟨arc.edge, edge, found, back, fun dominates => ?_⟩
      rw [atSource, atTarget] at dominates
      simp only [outside, run, answer.mpr dominates] at test
      cases test
    · intro some
      obtain ⟨e, edge, found, back, undominated⟩ := some
      obtain ⟨used, _⟩ := searched.back e edge found back
      obtain ⟨arc, member, atSource, atTarget⟩ := reflects.exists_backArc wired found used back
      obtain ⟨r, run, answer⟩ := answers arc member
      refine ⟨arc, (bad_iff arc).mpr ⟨member, ?_⟩⟩
      cases r with
      | true =>
        rw [atSource, atTarget] at undominated
        exact absurd (answer.mp rfl) undominated
      | false =>
        simp only [outside, run]
        rfl

/-- After a search in depth, whatever the order of the edges, the search for regions warns about irreducible
loops exactly if some reachable cycle has no block that dominates it. -/
theorem findRegions_warns_iff {before g : Graph} (wired : before.Wired) (numbered : before.renumber = .ok g) :
    ∃ found notes, g.findRegions = .ok (found, notes) ∧
      ((∃ note ∈ notes, note.tellsIrreducible = true) ↔ g.Irreducible) := by
  obtain ⟨renumbered, searched⟩ := wired.searched numbered
  obtain ⟨found, notes, run, _, told⟩ := searched.findRegions (renumbered.wired wired)
  refine ⟨found, notes, run, told.trans ⟨fun back => ?_, searched.back_of_irreducible⟩⟩
  obtain ⟨_, _, atEdge, marked, undominated⟩ := back
  exact searched.irreducible_of_back atEdge marked undominated

theorem findRegions_warns_iff_crossing : ∃ before g, (Graph.ofMethod crossing).run = .ok (.ok before) ∧
    before.Wired ∧ before.renumber = .ok g ∧ ∃ found notes, g.findRegions = .ok (found, notes) ∧
      ((∃ note ∈ notes, note.tellsIrreducible = true) ↔ g.Irreducible) := by
  obtain ⟨before, run⟩ := Building.run_of_result (x := Graph.ofMethod crossing) (by decide +kernel)
  have built := (Graph.ofMethod_yields crossing).of_run run
  obtain ⟨g, numbered, _⟩ := built.wired.renumber built.start_lt
  exact ⟨before, g, run, built.wired, numbered, findRegions_warns_iff built.wired numbered⟩

end Graph

end Unstack
