import Unstack.Proofs.Region.Classification

namespace Unstack

/-- The blocks of a loop are those that the search has found, each once. -/
theorem View.loopRegion_body {n : Nat} (v : View n) (head : Fin n) :
    (∀ b, b ∈ (v.loopRegion head).1.membersOf .body ↔ ∃ c ∈ (v.loopBody head).members, c.val = b) ∧
      ((v.loopRegion head).1.membersOf .body).Nodup := by
  simp only [loopRegion]
  generalize made : ({ Region.ofHead head _ with follow := _ } : Region) = region
  obtain ⟨members, once, _⟩ := region.membersOf_addMembers .body ((v.loopBody head).members.map Fin.val)
  have none : region.membersOf .body = [] := by
    rw [← made]
    rfl
  rw [none] at members once
  exact ⟨fun b => (members b).trans (by simp), once (by simp)⟩

namespace Graph

variable {g : Graph}

/-- A block of the loop that goes back to the head and leads ahead to no member. -/
def EndsLoop (g : Graph) (r : Region) (b : BlockId) : Prop :=
  (b = r.head ∨ b ∈ r.membersOf .body) ∧ g.Plain true b r.head ∧ ∀ t, g.Plain false b t → t ∉ r.membersOf .body

def NotBehind (g : Graph) (a b : BlockId) : Prop :=
  ∃ one two, g.blocks[a]? = some one ∧ g.blocks[b]? = some two ∧ one.place ≤ two.place

/-- The region holds what its head leads to and what leads back to the head, and its last block is the latest one of those
that end the loop. -/
structure ExactLoop (g : Graph) (r : Region) : Prop where
  members (b : BlockId) : b ∈ r.membersOf .body ↔ b ≠ r.head ∧ g.Ahead r.head b ∧ g.Returns r.head b
  once : (r.membersOf .body).Nodup
  last (l : BlockId) : r.loopLast? = some l → g.EndsLoop r l ∧ ∀ c, g.EndsLoop r c → g.NotBehind c l
  absent : r.loopLast? = none → ∀ c, ¬ g.EndsLoop r c

section Reflects

variable {f : Flow g.size} (reflects : g.Reflects f) (wired : g.Wired) {head : Fin g.size}

include reflects wired

/-- The blocks that end a loop are those among which the search chooses the last one. -/
theorem Reflects.endsLoop_iff {r : Region} (atHead : r.head = head) {members : List (Fin g.size)}
    (body : ∀ b, b ∈ r.membersOf .body ↔ ∃ c ∈ members, c.val = b) (b : Fin g.size) :
    g.EndsLoop r b ↔ (b = head ∨ b ∈ members) ∧ (View.mk f g.blocks.toVector).Closes head b ∧
      ∀ t, (View.mk f g.blocks.toVector).Flows b t → t ∉ members := by
  have inside (c : Fin g.size) : c.val ∈ r.membersOf .body ↔ c ∈ members := by
    rw [body]
    exact List.mem_map.symm.trans (List.mem_map_of_injective Fin.val_injective)
  have ahead : (∀ t, g.Plain false b t → t ∉ r.membersOf .body) ↔
      ∀ t, (View.mk f g.blocks.toVector).Flows b t → t ∉ members := by
    constructor
    · intro outside t flows
      exact mt (inside t).mpr (outside t ((reflects.plain_iff wired b t).mp flows))
    · intro outside t plain
      obtain ⟨e, joins⟩ := plain.steps
      have within : t < g.size := (wired.ends_live e _ _ joins).2.lt
      exact mt (inside ⟨t, within⟩).mp (outside ⟨t, within⟩ ((reflects.plain_iff wired b ⟨t, within⟩).mpr plain))
  rw [EndsLoop, atHead, inside, Fin.val_inj, ahead]
  exact and_congr_right fun _ => and_congr_left fun _ => (reflects.plain_iff wired b head).symm

theorem Searched.exactLoop (searched : g.Searched) (reached : g.Reachable head) {r : Region}
    (found : (View.mk f g.blocks.toVector).IsLoopAt head r) : g.ExactLoop r := by
  obtain ⟨_, parent, rfl⟩ := found
  have oriented := searched.oriented wired reflects
  obtain ⟨atHead, holds⟩ := (View.mk f g.blocks.toVector).loopRegion_holds head
  obtain ⟨body, once⟩ := (View.mk f g.blocks.toVector).loopRegion_body head
  obtain ⟨kind, made⟩ := (View.mk f g.blocks.toVector).loopRegion_kind head
  obtain ⟨ends, covers⟩ := oriented.loopBody_last reached
  have loop := searched.loopOf reflects wired reached atHead holds
  have endsLoop := reflects.endsLoop_iff wired atHead body
  -- a block that ends the loop is one of those that the last block is the latest of
  have covered (c : BlockId) (endsAt : g.EndsLoop ((View.mk f g.blocks.toVector).loopRegion head).1 c) :
      ∃ x : Fin g.size, x.val = c ∧ (View.mk f g.blocks.toVector).Covers
        ((View.mk f g.blocks.toVector).block x).place ((View.mk f g.blocks.toVector).loopBody head).last := by
    obtain ⟨e, joins⟩ := endsAt.2.1.steps
    have within : c < g.size := (wired.ends_live e _ _ joins).1.lt
    obtain ⟨inside, closes, outside⟩ := (endsLoop ⟨c, within⟩).mp endsAt
    exact ⟨⟨c, within⟩, rfl, covers _ inside closes outside⟩
  refine ⟨fun b => ((body b).trans (holds b).symm).trans (loop.holds b), once, fun l last => ?_, fun none c endsAt => ?_⟩
  · simp only [Region.loopLast?, made] at last
    obtain ⟨x, chosen, rfl⟩ := Option.map_eq_some_iff.mp last
    obtain ⟨inside, closes, outside⟩ := ends x chosen
    refine ⟨(endsLoop x).mpr ⟨inside, closes, fun t flows => (outside t flows).2⟩, fun c endsAt => ?_⟩
    obtain ⟨y, rfl, l, chosen', later⟩ := covered c endsAt
    cases chosen.some_unique chosen'
    exact ⟨_, _, payload_found y, payload_found x, later⟩
  · simp only [Region.loopLast?, made, Option.map_eq_none_iff] at none
    obtain ⟨_, _, l, chosen, _⟩ := covered c endsAt
    cases none.symm.trans chosen

end Reflects

/-- After a search in depth, whatever the order of the edges, every reachable block that an edge goes back to heads a loop,
and the loop is exact. -/
theorem findRegions_loops_exact {before g : Graph} (wired : before.Wired) (numbered : before.renumber = .ok g) :
    ∃ found notes, g.findRegions = .ok (found, notes) ∧ ∀ h, g.Reachable h → g.HeadsLoop h →
      (∃ r ∈ found.regions, r.isLoop = true ∧ r.head = h) ∧
        ∀ r ∈ found.regions, r.isLoop = true → r.head = h → g.ExactLoop r := by
  obtain ⟨renumbered, searched⟩ := wired.searched numbered
  have wired' := renumbered.wired wired
  obtain ⟨found, notes, run, _⟩ := searched.findRegions wired'
  obtain ⟨f, order, reflects, all, tally, same⟩ := searched.findRegions_tally wired' run
  refine ⟨found, notes, run, fun h reached heads => ⟨?_, fun r member isLoop _ => ?_⟩⟩
  · have once := searched.findRegions_loopsOnce wired' run
    have one := once.one h (by rw [same]; exact reached) (by rw [same]; exact heads)
    obtain ⟨r, member, fits⟩ := List.countP_pos_iff.mp (Nat.lt_of_lt_of_eq Nat.one_pos one.symm)
    rw [Bool.and_eq_true, Region.isHead, beq_iff_eq] at fits
    exact ⟨r, member, fits⟩
  · obtain ⟨b, visited, _, loop⟩ := tally.head r member
    exact searched.exactLoop reflects wired' ((all b).mp visited) (loop isLoop)

/-- The graph of a method, numbered, passes a test. -/
theorem numbered_of_any {m : MethodInput} {test : Graph → Bool}
    (passes : (Graph.ofMethod m).result?.any fun before => before.renumber.toOption.any test) :
    ∃ before g : Graph, before.Wired ∧ before.renumber = .ok g ∧ test g = true := by
  obtain ⟨before, given, passes⟩ := (Option.any_eq_true _ _).mp passes
  obtain ⟨built, run⟩ := Building.run_of_result (x := Graph.ofMethod m) (by rw [given]; rfl)
  obtain rfl : built = before := by simpa [Building.result?, run] using given
  obtain ⟨g, numbered, fits⟩ := of_any_toOption passes
  exact ⟨built, g, ((Graph.ofMethod_yields m).of_run run).wired, numbered, fits⟩

/-- The outer loop of the method holds the inner one and ends behind it. -/
theorem findRegions_loops_exact_drained : ∃ before g : Graph, before.Wired ∧ before.renumber = .ok g ∧ g.Reachable 0 ∧
    g.HeadsLoop 0 ∧ ∃ found notes r, g.findRegions = .ok (found, notes) ∧ r ∈ found.regions ∧ r.isLoop = true ∧
      r.head = 0 ∧ g.ExactLoop r ∧ r.membersOf .body = [3, 2, 1] ∧ r.loopLast? = some 3 := by
  have shaped : (Graph.ofMethod MethodInput.drained).result?.any fun before => before.renumber.toOption.any fun g =>
      g.start = 0 ∧ (g.edges[5]?.any fun e => e.removed = false ∧ e.back = true ∧ e.target = 0) ∧
        g.findRegions.toOption.any fun r => r.1.regions.all fun r => r.isLoop = true → r.head = 0 →
          r.membersOf .body = [3, 2, 1] ∧ r.loopLast? = some 3 := by decide +kernel
  obtain ⟨before, g, wired, numbered, shaped⟩ := numbered_of_any shaped
  obtain ⟨start, edge, regions⟩ := of_decide_eq_true shaped
  obtain ⟨e, atEdge, fits⟩ := (Option.any_eq_true _ _).mp edge
  have reached : g.Reachable 0 := by
    rw [← start]
    exact .refl
  have heads : g.HeadsLoop 0 := ⟨5, e, atEdge, of_decide_eq_true fits⟩
  obtain ⟨found, notes, run, exact⟩ := findRegions_loops_exact wired numbered
  obtain ⟨⟨r, member, isLoop, atHead⟩, exact⟩ := exact 0 reached heads
  rw [run] at regions
  have shape := of_decide_eq_true (List.all_eq_true.mp regions r member) isLoop atHead
  exact ⟨before, g, wired, numbered, reached, heads, found, notes, r, run, member, isLoop, atHead,
    exact r member isLoop atHead, shape⟩

end Graph

end Unstack
