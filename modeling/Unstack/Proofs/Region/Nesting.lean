import Unstack.Proofs.Region.Follow
import Unstack.Proofs.Region.LoopMembers

namespace Unstack

variable {r : Region}

theorem Region.isMember_iff {b : BlockId} : r.isMember b = true ↔ b = r.head ∨ r.Holds b := by
  rw [← Bool.not_eq_false, isMember_eq_false_iff]
  tauto

namespace Findings

variable {f : Findings}

/-- The parent of every region is the place of a region that holds its head. -/
def Rooted (f : Findings) : Prop :=
  ∀ r ∈ f.regions, ∀ p, r.parent = some p → ∃ outer, f.regions[p]? = some outer ∧ outer.isMember r.head = true

theorem Rooted.add (rooted : f.Rooted) (region : Region) (notes : List Diagnostic) : (f.add region notes).Rooted := by
  have stays {p : Nat} {outer : Region} (found : f.regions[p]? = some outer) :
      (f.add region notes).regions[p]? = some outer := by
    have inside := found.lt_length
    rw [← found]
    exact List.getElem?_append_left inside
  intro r member p parent
  rcases List.mem_append.mp member with old | new
  · obtain ⟨outer, found, holds⟩ := rooted r old p parent
    exact ⟨outer, stays found, holds⟩
  · rw [List.mem_singleton.mp new] at parent ⊢
    obtain ⟨⟨outer, q⟩, latest, rfl⟩ := Option.map_eq_some_iff.mp parent
    obtain ⟨listed, holds⟩ := List.mem_filter.mp (List.mem_of_getLast? latest)
    exact ⟨outer, stays (List.mem_zipIdx_iff_getElem?.mp listed), holds⟩

end Findings

namespace View

variable {n : Nat} {v : View n} {head b : Fin n}

theorem condRegion_isLoop (v : View n) (head whenTrue whenFalse : Fin n) :
    (v.condRegion head whenTrue whenFalse).1.isLoop = false := by
  rcases v.condRegion_cases head whenTrue whenFalse with ⟨_, _, kind, _, _, same⟩ | ⟨_, _, kind, _, _, _, same⟩ | same
  · rw [same, Region.isLoop, Region.loopKind?, (Region.ofBranches_same head kind _ _).2.2]
    rfl
  · rw [same, Region.isLoop, Region.loopKind?, (Region.ofBranches_same head kind _ _).2.2]
    rfl
  · rw [same]
    rfl

theorem syncRegion_isLoop (v : View n) (head : Fin n) : (v.syncRegion head).isLoop = false := by
  rw [Region.isLoop, Region.loopKind?, syncRegion, (Region.addMembers_same _ _ _).2.2]
  rfl

theorem switchRegion_isLoop (run : v.switchRegion head = .ok r) : r.isLoop = false := by
  obtain ⟨_, _, made⟩ := bind_eq_ok.mp run
  cases made
  rfl

/-- The only loop that the search may add at a block is the one of the block. -/
theorem Adds.eq_loopRegion (adds : v.Adds b r) (isLoop : r.isLoop = true) : r = (v.loopRegion b).1 := by
  cases adds with
  | loop => rfl
  | sync => cases isLoop.symm.trans (v.syncRegion_isLoop b)
  | switch run => cases isLoop.symm.trans (switchRegion_isLoop run)
  | cond _ => cases isLoop.symm.trans (v.condRegion_isLoop b _ _)

theorem loopRegion_holds (v : View n) (head : Fin n) : (v.loopRegion head).1.head = head ∧
    ∀ b, (v.loopRegion head).1.Holds b ↔ ∃ c ∈ (v.loopBody head).members, c.val = b := by
  simp only [loopRegion]
  refine ⟨(Region.addMembers_same _ _ _).1, fun b => ?_⟩
  rw [Region.holds_addMembers, List.mem_map]
  simp [Region.Holds, Region.ofHead]

end View

namespace Graph

variable {g : Graph} {a b c h : BlockId} {notes : List Diagnostic}

/-- An edge that no exception takes, with the mark of the search in depth. -/
def Plain (g : Graph) (back : Bool) (a b : BlockId) : Prop :=
  ∃ (e : EdgeId) (edge : Edge), g.edges[e]? = some edge ∧ edge.removed = false ∧ edge.kind.isHandler = false ∧
    edge.back = back ∧ edge.source = a ∧ edge.target = b

/-- Control may come from one block to the other without going back, exceptions apart. -/
def Ahead (g : Graph) : BlockId → BlockId → Prop := Relation.ReflTransGen (g.Plain false)

/-- The block leads ahead to one that goes back to the head. -/
def Returns (g : Graph) (head b : BlockId) : Prop := ∃ c, g.Ahead b c ∧ g.Plain true c head

/-- The region is the loop of its head: what the head leads to and what leads back to the head. -/
structure LoopOf (g : Graph) (r : Region) : Prop where
  reached : g.Reachable r.head
  holds (b : BlockId) : r.Holds b ↔ b ≠ r.head ∧ g.Ahead r.head b ∧ g.Returns r.head b

/-- The natural loop of a head: the head, and what leads to a back edge to the head without going through the head. -/
def NaturalLoop (g : Graph) (head b : BlockId) : Prop :=
  b = head ∨ b ≠ head ∧ ∃ c, g.Plain true c head ∧ g.Dominates head c ∧
    Relation.ReflTransGen (fun x y => g.Steps x y ∧ y ≠ head) b c

theorem Plain.steps {back : Bool} (plain : g.Plain back a b) : g.Steps a b := by
  obtain ⟨e, edge, found, used, _, _, source, target⟩ := plain
  exact ⟨e, edge, found, used, source, target⟩

section Reflects

variable {f : Flow g.size} (reflects : g.Reflects f) (wired : g.Wired) {blocks : Vector Block g.size}

include reflects wired

theorem Reflects.plain_iff {back : Bool} (x y : Fin g.size) :
    (∃ arc ∈ f.outs.get x, arc.kind.isHandler = false ∧ arc.back = back ∧ arc.target = y) ↔ g.Plain back x y := by
  constructor
  · rintro ⟨arc, leaves, plain, marked, rfl⟩
    obtain ⟨edge, found, used, source, target, kind, mark⟩ := reflects.out_shows x arc leaves
    obtain rfl := reflects.out_source wired leaves
    exact ⟨arc.edge, edge, found, used, kind ▸ plain, mark.trans marked, source, target⟩
  · rintro ⟨e, edge, found, used, plain, marked, source, target⟩
    have leaves := (wired.mem_outs x e).mpr ⟨_, edge, found, used, source, rfl⟩
    rw [← reflects.outs x] at leaves
    obtain ⟨arc, member, rfl⟩ := List.mem_map.mp leaves
    obtain ⟨edge', found', _, _, target', kind, mark⟩ := reflects.out_shows x arc member
    cases found.some_unique found'
    exact ⟨arc, member, kind ▸ plain, mark.symm.trans marked, Fin.ext (target'.symm.trans target)⟩

/-- The ways ahead from a block stay among the blocks of the graph. -/
theorem Reflects.ahead_iff (x : Fin g.size) :
    g.Ahead x b ↔ ∃ y : Fin g.size, y.val = b ∧ Relation.ReflTransGen (View.mk f blocks).Flows x y := by
  constructor
  · intro ahead
    induction ahead with
    | refl => exact ⟨x, rfl, .refl⟩
    | @tail _ c _ plain ih =>
      obtain ⟨y, rfl, leads⟩ := ih
      obtain ⟨e, joins⟩ := plain.steps
      have inside : c < g.size := (wired.ends_live e _ _ joins).2.lt
      exact ⟨⟨c, inside⟩, rfl, leads.tail ((reflects.plain_iff wired y ⟨c, inside⟩).mpr plain)⟩
  · rintro ⟨y, rfl, leads⟩
    exact leads.lift Fin.val fun x y flows => (reflects.plain_iff wired x y).mp flows

theorem Reflects.returns_iff (head x : Fin g.size) : g.Returns head x ↔ (View.mk f blocks).Returns head x := by
  constructor
  · rintro ⟨_, ahead, back⟩
    obtain ⟨y, rfl, leads⟩ := (reflects.ahead_iff wired x).mp ahead
    exact ⟨y, leads, (reflects.plain_iff wired y head).mpr back⟩
  · rintro ⟨y, leads, closes⟩
    exact ⟨y, (reflects.ahead_iff wired x).mpr ⟨y, rfl, leads⟩, (reflects.plain_iff wired y head).mp closes⟩

/-- The loop that is found at a reachable block is the loop of that block. -/
theorem Searched.loopOf (searched : g.Searched) {head : Fin g.size} (reached : g.Reachable head)
    (atHead : r.head = head)
    (holds : ∀ b, r.Holds b ↔ ∃ c ∈ ((View.mk f g.blocks.toVector).loopBody head).members, c.val = b) : g.LoopOf r := by
  refine ⟨atHead ▸ reached, fun b => ?_⟩
  rw [holds, atHead, reflects.ahead_iff wired head]
  have member (c : Fin g.size) := (searched.oriented wired reflects).mem_loopBody reached (b := c)
  constructor
  · rintro ⟨c, inside, rfl⟩
    obtain ⟨other, leads, returns⟩ := (member c).mp inside
    exact ⟨fun same => other (Fin.ext same), ⟨c, rfl, leads⟩, (reflects.returns_iff wired head c).mpr returns⟩
  · rintro ⟨other, ⟨c, rfl, leads⟩, returns⟩
    exact ⟨c, (member c).mpr ⟨fun same => other (congrArg Fin.val same), leads,
      (reflects.returns_iff wired head c).mp returns⟩, rfl⟩

end Reflects

/-- The search for regions after a search in depth finds the loops of heads, and each region lies in one that holds its
head. -/
theorem Searched.findRegions_loops (searched : g.Searched) (wired : g.Wired) {found : Graph}
    (run : g.findRegions = .ok (found, notes)) :
    found = { g with regions := found.regions } ∧ (∀ r ∈ found.regions, r.isLoop = true → g.LoopOf r) ∧
      ∀ r ∈ found.regions, ∀ p, r.parent = some p →
        ∃ outer, found.regions[p]? = some outer ∧ outer.isMember r.head = true := by
  obtain ⟨f, order, _, last, _, reflects, all, _, finds, rfl⟩ := searched.findRegions_finds wired run
  refine ⟨rfl, View.findAll_keeps (P := fun known => (∀ r ∈ known.regions, r.isLoop = true → g.LoopOf r) ∧ known.Rooted)
    ?_ ⟨by simp, by simp [Findings.Rooted]⟩ finds⟩
  rintro b atBlock known region notes ⟨loops, rooted⟩ adds
  refine ⟨fun r member isLoop => ?_, rooted.add region notes⟩
  rcases List.mem_append.mp member with old | new
  · exact loops r old isLoop
  · rw [List.mem_singleton.mp new] at isLoop ⊢
    cases adds.eq_loopRegion isLoop
    obtain ⟨atHead, holds⟩ := (View.mk f g.blocks.toVector).loopRegion_holds b
    exact searched.loopOf reflects wired ((all b).mp atBlock) atHead holds

/-- The search for regions does not depend on the regions that are there, and if it has nothing to tell, the graph is
reducible. -/
theorem Searched.reducible_of_quiet (searched : g.Searched) (wired : g.Wired) {found : Graph}
    (run : g.findRegions = .ok (found, notes)) (quiet : found.findRegions.toOption.any fun again => again.2.isEmpty) :
    ¬ found.Irreducible := by
  obtain ⟨_, _, run', same, told⟩ := searched.findRegions wired
  cases run.ok_unique run'
  have again : found.findRegions = g.findRegions := by
    rw [same]
    rfl
  rw [again, run] at quiet
  have none : notes = [] := List.isEmpty_iff.mp quiet
  have reducible : ¬ g.Irreducible := fun irreducible => by
    obtain ⟨note, member, _⟩ := told.mpr (searched.back_of_irreducible irreducible)
    rw [none] at member
    cases member
  rw [same]
  exact reducible

theorem Searched.ahead (searched : g.Searched) (reached : g.Reachable a) (ahead : g.Ahead a b) :
    g.Reachable b ∧ (b = a ∨ g.rank b < g.rank a) := by
  induction ahead with
  | refl => exact ⟨reached, .inl rfl⟩
  | @tail b c _ plain ih =>
    obtain ⟨reached', lower⟩ := ih
    refine ⟨reached'.tail plain.steps, .inr ?_⟩
    obtain ⟨e, edge, found, used, _, ahead, rfl, rfl⟩ := plain
    rcases searched.forward e edge found used reached' with marked | lower'
    · rw [ahead] at marked
      cases marked
    · rcases lower with same | lower
      · rwa [same] at lower'
      · omega

theorem Searched.ahead_le (searched : g.Searched) (reached : g.Reachable a) (ahead : g.Ahead a b) :
    g.rank b ≤ g.rank a := by
  rcases (searched.ahead reached ahead).2 with rfl | lower
  · exact Nat.le_refl _
  · exact lower.le

/-- A way ahead from below a block does not come to the block. -/
theorem Searched.ahead_avoids (searched : g.Searched) (reached : g.Reachable a) (below : g.rank a < g.rank h)
    (ahead : g.Ahead a b) : Relation.ReflTransGen (fun x y => g.Steps x y ∧ y ≠ h) a b := by
  induction ahead with
  | refl => exact .refl
  | @tail b c before plain ih =>
    refine ih.tail ⟨plain.steps, ?_⟩
    rintro rfl
    have lower := searched.ahead_le reached (before.tail plain)
    omega

theorem Searched.dominates_of_back (searched : g.Searched) (reducible : ¬ g.Irreducible) (back : g.Plain true c h) :
    g.Dominates h c := by
  obtain ⟨e, edge, found, _, _, marked, rfl, rfl⟩ := back
  by_contra undominated
  exact reducible (searched.irreducible_of_back found marked undominated)

section Loop

variable {r : Region} (loop : g.LoopOf r)

include loop

theorem LoopOf.lower (searched : g.Searched) (holds : r.Holds b) : g.rank b < g.rank r.head := by
  obtain ⟨other, ahead, _⟩ := (loop.holds b).mp holds
  exact (searched.ahead loop.reached ahead).2.resolve_left other

theorem LoopOf.ahead (member : r.isMember b = true) : g.Ahead r.head b := by
  rcases Region.isMember_iff.mp member with rfl | holds
  · exact .refl
  · exact ((loop.holds b).mp holds).2.1

/-- The block that a member leads to and that goes back to the head is a member, too. -/
theorem LoopOf.holds_of_ahead (searched : g.Searched) (holds : r.Holds b) (ahead : g.Ahead b c)
    (back : g.Plain true c r.head) : r.Holds c := by
  obtain ⟨_, before, _⟩ := (loop.holds b).mp holds
  have lower := loop.lower searched holds
  have lower' := searched.ahead_le (searched.ahead loop.reached before).1 ahead
  refine (loop.holds c).mpr ⟨?_, before.trans ahead, c, .refl, back⟩
  rintro rfl
  omega

end Loop

/-- How a loop lies in a loop that holds its head. Its other members are members of the outer loop if they lead ahead to
a block that goes back to the outer head. -/
structure Nests (g : Graph) (inner outer : Region) : Prop where
  head : outer.isMember inner.head = true
  member_iff (b : BlockId) : inner.Holds b → (outer.isMember b = true ↔ g.Returns outer.head b)
  contained_iff : (∀ b, inner.Holds b → outer.isMember b = true) ↔
    ∀ c, inner.isMember c = true → g.Plain true c inner.head → g.Returns outer.head c
  natural (b : BlockId) : ¬ g.Irreducible → inner.Holds b → g.NaturalLoop outer.head b

section Nested

variable (searched : g.Searched) {inner outer : Region} (innerLoop : g.LoopOf inner) (outerLoop : g.LoopOf outer)
  (head : outer.isMember inner.head = true)

include searched innerLoop outerLoop head

theorem LoopOf.below_outer (holds : inner.Holds b) : g.rank b < g.rank outer.head :=
  Nat.lt_of_lt_of_le (innerLoop.lower searched holds) (searched.ahead_le outerLoop.reached (outerLoop.ahead head))

theorem LoopOf.member_outer_iff (holds : inner.Holds b) : outer.isMember b = true ↔ g.Returns outer.head b := by
  have other : b ≠ outer.head := by
    rintro rfl
    exact absurd (innerLoop.below_outer searched outerLoop head holds) (Nat.lt_irrefl _)
  have ahead : g.Ahead outer.head b := (outerLoop.ahead head).trans ((innerLoop.holds b).mp holds).2.1
  rw [Region.isMember_iff, outerLoop.holds b]
  simp [other, ahead]

theorem LoopOf.contained_outer_iff : (∀ b, inner.Holds b → outer.isMember b = true) ↔
    ∀ c, inner.isMember c = true → g.Plain true c inner.head → g.Returns outer.head c := by
  constructor
  · intro contained c member back
    rcases Region.isMember_iff.mp member with rfl | holds
    · rcases Region.isMember_iff.mp head with same | holds
      · exact ⟨inner.head, .refl, same ▸ back⟩
      · exact ((outerLoop.holds _).mp holds).2.2
    · exact (innerLoop.member_outer_iff searched outerLoop head holds).mp (contained c holds)
  · intro returns b holds
    obtain ⟨_, _, c, ahead, back⟩ := (innerLoop.holds b).mp holds
    have holds' := innerLoop.holds_of_ahead searched holds ahead back
    obtain ⟨last, ahead', back'⟩ := returns c (Region.isMember_iff.mpr (.inr holds')) back
    exact (innerLoop.member_outer_iff searched outerLoop head holds).mpr ⟨last, ahead.trans ahead', back'⟩

/-- From a member control goes on to the inner head, and from there to a back edge to the outer one. -/
theorem LoopOf.natural_outer (reducible : ¬ g.Irreducible) (holds : inner.Holds b) : g.NaturalLoop outer.head b := by
  have below := innerLoop.below_outer searched outerLoop head holds
  obtain ⟨_, before, c, ahead, back⟩ := (innerLoop.holds b).mp holds
  have toBack := searched.ahead_avoids (searched.ahead innerLoop.reached before).1 below ahead
  refine .inr ⟨fun same => absurd below (same ▸ Nat.lt_irrefl _), ?_⟩
  rcases Region.isMember_iff.mp head with same | outerHolds
  · rw [same] at back
    exact ⟨c, back, searched.dominates_of_back reducible back, toBack⟩
  · have below' := outerLoop.lower searched outerHolds
    obtain ⟨other, _, last, ahead', back'⟩ := (outerLoop.holds _).mp outerHolds
    have onward := searched.ahead_avoids innerLoop.reached below' ahead'
    exact ⟨last, back', searched.dominates_of_back reducible back', (toBack.tail ⟨back.steps, other⟩).trans onward⟩

/-- An inner loop lies inside the outer one as far as it returns there. -/
theorem LoopOf.nests : g.Nests inner outer where
  head := head
  member_iff _ := innerLoop.member_outer_iff searched outerLoop head
  contained_iff := innerLoop.contained_outer_iff searched outerLoop head
  natural _ := innerLoop.natural_outer searched outerLoop head

end Nested

end Graph

namespace MethodInput

/-- Where a method can be analysed, loops nest by their heads: a loop whose parent is a loop has its head in the parent,
and its other members are in the parent if they lead there without the way back to the inner head. -/
theorem decompile_loops_nest {input : MethodInput} {plan : Plan} {g g' : Graph}
    (built : (Graph.ofMethod input).run = .ok (.ok g)) (solved : g.solve plan.options = .ok (.ok (), g')) :
    ∃ (d : Decompiled) (last : Graph), input.decompile plan = .ok d ∧ d.graph = some last ∧
      ∀ inner ∈ last.regions, inner.isLoop = true → ∀ p outer, inner.parent = some p → last.regions[p]? = some outer →
        outer.isLoop = true → last.Nests inner outer := by
  obtain ⟨d, before, last, notes, run, atGraph, wired, searched, found⟩ := decompile_findRegions built solved
  obtain ⟨same, loops, rooted⟩ := searched.findRegions_loops wired found
  refine ⟨d, last, run, atGraph, fun inner member isLoop p outer parent atParent isLoop' => ?_⟩
  obtain ⟨outer', atParent', head⟩ := rooted inner member p parent
  cases Option.some.inj (atParent.symm.trans atParent')
  have nests := (loops inner member isLoop).nests searched (loops outer (List.mem_of_getElem? atParent) isLoop') head
  rw [same]
  exact ⟨nests.head, nests.member_iff, nests.contained_iff, nests.natural⟩

/-- Two loops, one in the other, both with the test at the head. -/
def countdown : MethodInput where
  info := MethodInfo.plain "countdown" 4 4
  ops := [⟨0, 0, -1, .load .int 0⟩, ⟨1, 0, -1, .jumpZero .int .eq 8⟩, ⟨2, 0, -1, .load .int 1⟩,
    ⟨3, 0, -1, .jumpZero .int .eq 6⟩, ⟨4, 0, -1, .inc .int 1 (-1)⟩, ⟨5, 0, -1, .goto 2⟩, ⟨6, 0, -1, .inc .int 0 (-1)⟩,
    ⟨7, 0, -1, .goto 0⟩, ⟨8, 0, -1, .leave .void⟩]
  exceptions := []

theorem countdown_loops : ∃ g g' d last, (Graph.ofMethod countdown).run = .ok (.ok g) ∧ g.solve {} = .ok (.ok (), g') ∧
    countdown.decompile ⟨.none, {}⟩ = .ok d ∧ d.graph = some last ∧ d.failed = false ∧ ¬ last.Irreducible ∧
    ∃ inner ∈ last.regions, inner.isLoop = true ∧ ∃ p outer, inner.parent = some p ∧ last.regions[p]? = some outer ∧
      outer.isLoop = true ∧ ∃ b, inner.Holds b ∧ outer.isMember b = false := by
  have loops : (countdown.decompile ⟨.none, {}⟩).toOption.any fun d => d.graph.any fun g => !d.failed &&
      (g.findRegions.toOption.any fun again => again.2.isEmpty) && g.regions.any fun inner => inner.isLoop &&
        inner.parent.any fun p => g.regions[p]?.any fun outer => outer.isLoop &&
          inner.allMembers.any fun b => decide (inner.Holds b) && !outer.isMember b := by decide +kernel
  obtain ⟨g, g', built, solved⟩ := Graph.solves_of_isSome (show (Graph.solved? countdown {}).isSome by decide +kernel)
  obtain ⟨d, before, last, notes, run, atGraph, wired, searched, found⟩ :=
    @decompile_findRegions countdown ⟨.none, {}⟩ g g' built solved
  obtain ⟨d', run', loops⟩ := of_any_toOption loops
  cases run.ok_unique run'
  rw [atGraph, Option.any_some, Bool.and_eq_true, Bool.and_eq_true, Bool.not_eq_true'] at loops
  obtain ⟨⟨clean, quiet⟩, nested⟩ := loops
  simp only [Bool.and_eq_true, Bool.not_eq_true', List.any_eq_true, Option.any_eq_true, decide_eq_true_eq] at nested
  obtain ⟨inner, member, isLoop, p, parent, outer, atParent, isLoop', b, _, holds, outside⟩ := nested
  exact ⟨g, g', d, last, built, solved, run, atGraph, clean, searched.reducible_of_quiet wired found quiet, inner, member,
    isLoop, p, outer, parent, atParent, isLoop', b, holds, outside⟩

theorem decompile_loops_nest_countdown : ∃ d last, countdown.decompile ⟨.none, {}⟩ = .ok d ∧ d.graph = some last ∧
    ∃ inner ∈ last.regions, ∃ outer ∈ last.regions, inner.isLoop = true ∧ outer.isLoop = true ∧ last.Nests inner outer ∧
      ∃ b, inner.Holds b ∧ last.NaturalLoop outer.head b := by
  obtain ⟨g, g', d, last, built, solved, run, atGraph, _, reducible, inner, member, isLoop, p, outer, parent, atParent,
    isLoop', b, holds, _⟩ := countdown_loops
  obtain ⟨d', last', run', atGraph', nest⟩ := @decompile_loops_nest countdown ⟨.none, {}⟩ g g' built solved
  cases Except.ok.inj (run.symm.trans run')
  cases Option.some.inj (atGraph.symm.trans atGraph')
  have nests := nest inner member isLoop p outer parent atParent isLoop'
  exact ⟨d, last, run, atGraph, inner, member, outer, List.mem_of_getElem? atParent, isLoop, isLoop', nests, b, holds,
    nests.natural b reducible holds⟩

/-- The body of the inner loop leads to the outer head through the inner head only, so it is no member of the outer
loop. -/
theorem decompile_inner_outside : ∃ d last, countdown.decompile ⟨.none, {}⟩ = .ok d ∧ d.failed = false ∧
    d.graph = some last ∧ ¬ last.Irreducible ∧ ∃ inner ∈ last.regions, inner.isLoop = true ∧
      ∃ p outer, inner.parent = some p ∧ last.regions[p]? = some outer ∧ outer.isLoop = true ∧
        ∃ b, inner.Holds b ∧ outer.isMember b = false := by
  obtain ⟨_, _, d, last, _, _, run, atGraph, clean, reducible, nested⟩ := countdown_loops
  exact ⟨d, last, run, clean, atGraph, reducible, nested⟩

end MethodInput

end Unstack
