import Unstack.Proofs.Region.LoopMembers
import Unstack.Proofs.Region.Nesting

namespace Unstack

variable {r : Region}

namespace Region

/-- The region is a loop that tests its condition at the head. -/
def testsFirst (r : Region) : Bool := r.loopKind?.any LoopKind.isPreTest

/-- The region is a loop that tests its condition at the last block. -/
def testsLast (r : Region) : Bool := r.loopKind?.any LoopKind.isPostTest

def isCond (r : Region) : Bool := r.condKind?.isSome

theorem isLoop_of_testsFirst (tests : r.testsFirst = true) : r.isLoop = true := by
  obtain ⟨kind, found, _⟩ := (Option.any_eq_true _ _).mp tests
  rw [isLoop, found]
  rfl

theorem isLoop_of_testsLast (tests : r.testsLast = true) : r.isLoop = true := by
  obtain ⟨kind, found, _⟩ := (Option.any_eq_true _ _).mp tests
  rw [isLoop, found]
  rfl

theorem not_isLoop_of_isCond (isCond : r.isCond = true) : r.isLoop = false := by
  unfold Region.isCond condKind? at isCond
  unfold isLoop loopKind?
  split at isCond
  · rename_i found
    rw [found]
    rfl
  · cases isCond

end Region

namespace View

variable {n : Nat} {v : View n} {b : Fin n} {f f' : Findings}

/-- Every region that the search may add at a block has the block as its head. -/
theorem Adds.head (adds : v.Adds b r) : r.head = b := by
  cases adds with
  | loop => exact (v.loopRegion_holds b).1
  | sync => exact (Region.addMembers_same _ _ _).1
  | switch run =>
    obtain ⟨_, _, made⟩ := bind_eq_ok.mp run
    cases made
    rfl
  | @cond whenTrue whenFalse _ =>
    rcases v.condRegion_cases b whenTrue whenFalse with ⟨_, _, kind, _, _, same⟩ | ⟨_, _, kind, _, _, _, same⟩ | same
    · rw [same, (Region.ofBranches_same b kind _ _).1]
    · rw [same, (Region.ofBranches_same b kind _ _).1]
    · rw [same]
      rfl

theorem syncRegion_isCond (v : View n) (head : Fin n) : (v.syncRegion head).isCond = false := by
  rw [Region.isCond, Region.condKind?, syncRegion, (Region.addMembers_same _ _ _).2.2]
  rfl

theorem switchRegion_isCond (run : v.switchRegion b = .ok r) : r.isCond = false := by
  obtain ⟨_, _, made⟩ := bind_eq_ok.mp run
  cases made
  rfl

/-- The condition at the block is the test of none of the loops. -/
def Untested (b : Fin n) (known : List Region) : Prop :=
  ∀ loop ∈ known, loop.testsLast = true → loop.loopLast? ≠ some b.val

theorem untested_of_isPostTest (free : f.isPostTest b = false) : Untested b f.regions := by
  intro loop member tests last
  have other := List.any_eq_false.mp free loop member
  rw [Region.testsLast] at tests
  simp [tests, last] at other

/-- The search for other regions than loops adds one at most. -/
theorem findInner_adds (run : v.findInner b f = .ok f') :
    ∃ inner, f'.regions = f.regions ++ inner ∧ inner.length ≤ 1 ∧ ∀ r ∈ inner, r.head = b ∧ r.isLoop = false ∧
      (r.isCond = true → Untested b f.regions) := by
  have nothing : ∃ inner, f.regions = f.regions ++ inner ∧ inner.length ≤ 1 ∧ ∀ r ∈ inner, r.head = b ∧
      r.isLoop = false ∧ (r.isCond = true → Untested b f.regions) := ⟨[], by simp, by simp, by simp⟩
  have one {region : Region} (notes : List Diagnostic) (adds : v.Adds b region) (inner : region.isLoop = false)
      (untested : region.isCond = true → Untested b f.regions) :
      ∃ inner, (f.add region notes).regions = f.regions ++ inner ∧ inner.length ≤ 1 ∧ ∀ r ∈ inner, r.head = b ∧
        r.isLoop = false ∧ (r.isCond = true → Untested b f.regions) := by
    refine ⟨_, rfl, by simp, fun r member => ?_⟩
    rw [List.mem_singleton.mp member]
    exact ⟨adds.head, inner, untested⟩
  unfold findInner at run
  split at run
  · cases run
    exact one _ .sync (v.syncRegion_isLoop b) (by simp [v.syncRegion_isCond b])
  · split at run
    · obtain ⟨region, found, run⟩ := bind_eq_ok.mp run
      cases run
      exact one _ (.switch found) (switchRegion_isLoop found) (by simp [switchRegion_isCond found])
    · split at run
      · rename_i whenTrue whenFalse ways
        split at run
        · cases run
          exact nothing
        · rename_i free
          cases run
          exact one _ (.cond ways) (v.condRegion_isLoop b whenTrue whenFalse) fun _ =>
            untested_of_isPostTest (by simpa using free)
      · cases run
        exact nothing

/-- The region is the loop that the search finds at the block. -/
def IsLoopAt (v : View n) (b : Fin n) (r : Region) : Prop :=
  v.isLoopHead b = true ∧ ∃ parent, r = { (v.loopRegion b).1 with parent }

/-- What the search adds at one block to the regions that it knows: the loop of a loop head, and at most one more region.
A condition is added only if it is not the test of a loop that is known then. -/
structure Addition (v : View n) (b : Fin n) (known added : List Region) : Prop where
  head (r : Region) : r ∈ added → r.head = b
  loop (r : Region) : r ∈ added → r.isLoop = true → v.IsLoopAt b r
  loops : (v.block b).removed = false → v.isLoopHead b = true → added.countP Region.isLoop = 1
  further : added.countP (!·.isLoop) ≤ 1
  first (r : Region) : r ∈ added → r.isCond = true → ∀ loop ∈ added, loop.testsFirst = false
  last (r : Region) : r ∈ added → r.isCond = true → Untested b (known ++ added)

theorem loopRegion_kind (v : View n) (head : Fin n) :
    ∃ kind, (v.loopRegion head).1.kind = .loop kind ((v.loopBody head).last.map Fin.val) :=
  ⟨_, (Region.addMembers_same _ _ _).2.2⟩

theorem loopRegion_isLoop (v : View n) (head : Fin n) : (v.loopRegion head).1.isLoop = true := by
  obtain ⟨_, kind⟩ := v.loopRegion_kind head
  rw [Region.isLoop, Region.loopKind?, kind]
  rfl

theorem IsLoopAt.isLoop (loop : v.IsLoopAt b r) : r.head = b ∧ r.isLoop = true := by
  obtain ⟨_, parent, rfl⟩ := loop
  exact ⟨(v.loopRegion_holds b).1, v.loopRegion_isLoop b⟩

theorem Addition.of_parts {known loops inner : List Region}
    (loop : ∀ r ∈ loops, v.IsLoopAt b r)
    (single : (v.block b).removed = false → v.isLoopHead b = true → loops.length = 1)
    (first : inner = [] ∨ ∀ r ∈ loops, r.testsFirst = false) (short : inner.length ≤ 1)
    (other : ∀ r ∈ inner, r.head = b ∧ r.isLoop = false ∧ (r.isCond = true → Untested b (known ++ loops))) :
    v.Addition b known (loops ++ inner) := by
  have all : loops.countP Region.isLoop = loops.length := List.countP_eq_length.mpr fun r member => (loop r member).isLoop.2
  have none : inner.countP Region.isLoop = 0 := List.countP_eq_zero.mpr fun r member => by simp [(other r member).2.1]
  have none' : loops.countP (!·.isLoop) = 0 := List.countP_eq_zero.mpr fun r member => by simp [(loop r member).isLoop.2]
  have inside (r : Region) (member : r ∈ loops ++ inner) (isCond : r.isCond = true) : r ∈ inner :=
    (List.mem_append.mp member).resolve_left fun early => by
      cases (loop r early).isLoop.2.symm.trans (Region.not_isLoop_of_isCond isCond)
  refine ⟨fun r member => ?_, fun r member isLoop => ?_, fun inUse atHead => ?_, ?_, fun r member isCond l among => ?_,
    fun r member isCond l among tests => ?_⟩
  · exact (List.mem_append.mp member).elim (fun early => (loop r early).isLoop.1) fun late => (other r late).1
  · rcases List.mem_append.mp member with early | late
    · exact loop r early
    · cases isLoop.symm.trans (other r late).2.1
  · rw [List.countP_append, all, none, single inUse atHead]
  · rw [List.countP_append, none', Nat.zero_add]
    exact List.countP_le_length.trans short
  · have late := inside r member isCond
    rcases List.mem_append.mp among with early | late'
    · exact first.resolve_left (List.ne_nil_of_mem late) l early
    · rw [Bool.eq_false_iff]
      intro tests
      cases (Region.isLoop_of_testsFirst tests).symm.trans (other l late').2.1
  · have late := inside r member isCond
    rw [← List.append_assoc] at among
    rcases List.mem_append.mp among with early | late'
    · exact (other r late).2.2 isCond l early tests
    · cases (Region.isLoop_of_testsLast tests).symm.trans (other l late').2.1

theorem findAt_adds (run : v.findAt b f = .ok f') :
    ∃ added, f'.regions = f.regions ++ added ∧ v.Addition b f.regions added := by
  unfold findAt at run
  split at run
  · rename_i removed
    cases run
    have nothing : v.Addition b f.regions ([] ++ []) :=
      .of_parts (by simp) (by simp [removed]) (.inl rfl) (by simp) (by simp)
    exact ⟨[], by simp, nothing⟩
  · split at run
    · rename_i atHead
      obtain ⟨found, regions, isLoop⟩ : ∃ found : Region,
          (f.add (v.loopRegion b).1 (v.loopRegion b).2).regions = f.regions ++ [found] ∧ v.IsLoopAt b found :=
        ⟨_, rfl, atHead, _, rfl⟩
      have loop (r : Region) (member : r ∈ [found]) : v.IsLoopAt b r := by
        rw [List.mem_singleton.mp member]
        exact isLoop
      simp only at run
      split at run
      · cases run
        have alone : v.Addition b f.regions ([found] ++ []) :=
          .of_parts loop (fun _ _ => rfl) (.inl rfl) (by simp) (by simp)
        exact ⟨[found], regions, alone⟩
      · rename_i later
        obtain ⟨inner, more, short, each⟩ := findInner_adds run
        rw [regions] at more each
        have plain (r : Region) (member : r ∈ [found]) : r.testsFirst = false := by
          obtain ⟨_, parent, rfl⟩ := loop r member
          exact Bool.eq_false_iff.mpr later
        refine ⟨[found] ++ inner, by rw [more, List.append_assoc], ?_⟩
        exact .of_parts loop (fun _ _ => rfl) (.inr plain) short each
    · rename_i other
      obtain ⟨inner, regions, short, each⟩ := findInner_adds run
      have added : v.Addition b f.regions ([] ++ inner) :=
        .of_parts (by simp) (by simp [other]) (.inr (by simp)) short (by simpa using each)
      exact ⟨inner, regions, added⟩

/-- After the search has visited some blocks, the regions are those of these blocks: each loop head heads one loop, and
every block heads at most one region besides. -/
structure Tally (v : View n) (done : List (Fin n)) (regions : List Region) : Prop where
  head (r : Region) : r ∈ regions → ∃ b ∈ done, r.head = b ∧ (r.isLoop = true → v.IsLoopAt b r)
  loops (b : Fin n) : b ∈ done → (v.block b).removed = false → v.isLoopHead b = true →
    regions.countP (fun r => r.isLoop && r.isHead b) = 1
  further (b : Fin n) : b ∈ done → regions.countP (fun r => !r.isLoop && r.isHead b) ≤ 1
  first (r : Region) : r ∈ regions → r.isCond = true → ∀ loop ∈ regions, loop.testsFirst = true → loop.head ≠ r.head
  last (r : Region) : r ∈ regions → r.isCond = true → ∀ loop ∈ regions, loop.testsLast = true →
    loop.loopLast? ≠ some r.head

section Tally

variable {start : Fin n} {reached : Fin n → Prop} {done : List (Fin n)} {known added regions : List Region}
  {p : Region → Bool}

theorem countP_of_head {b : BlockId} (head : ∀ r ∈ regions, r.head = b) :
    regions.countP (fun r => p r && r.isHead b) = regions.countP p := by
  refine List.countP_congr fun r member => ?_
  simp [Region.isHead, head r member]

theorem countP_of_other {b : BlockId} (other : ∀ r ∈ regions, r.head ≠ b) :
    regions.countP (fun r => p r && r.isHead b) = 0 := by
  refine List.countP_eq_zero.mpr fun r member => ?_
  simp [Region.isHead, other r member]

/-- The regions of one more block are counted in. -/
theorem Tally.add (oriented : v.Oriented start reached) (tally : v.Tally done known) (addition : v.Addition b known added)
    (atBlock : reached b) (lower : ∀ c ∈ done, v.number b < v.number c) : v.Tally (done ++ [b]) (known ++ added) := by
  have apart (c : Fin n) (member : c ∈ done) : c.val ≠ b.val := fun same => by
    have below := lower c member
    rw [Fin.ext same] at below
    exact Nat.lt_irrefl _ below
  have old (r : Region) (member : r ∈ known) : r.head ≠ b.val := by
    obtain ⟨c, visited, atHead, _⟩ := tally.head r member
    exact atHead ▸ apart c visited
  have new (c : Fin n) (member : c ∈ done) (r : Region) (among : r ∈ added) : r.head ≠ c.val := by
    rw [addition.head r among]
    exact (apart c member).symm
  have counted (c : Fin n) (member : c ∈ done) (p : Region → Bool) :
      (known ++ added).countP (fun r => p r && r.isHead c) = known.countP fun r => p r && r.isHead c := by
    rw [List.countP_append, countP_of_other (new c member), Nat.add_zero]
  have here (p : Region → Bool) : (known ++ added).countP (fun r => p r && r.isHead b) = added.countP p := by
    rw [List.countP_append, countP_of_other old, countP_of_head addition.head, Nat.zero_add]
  refine ⟨fun r member => ?_, fun c member inUse atHead => ?_, fun c member => ?_, fun r member isCond loop among tests => ?_,
    fun r member isCond loop among tests => ?_⟩
  · rcases List.mem_append.mp member with early | late
    · obtain ⟨c, visited, known⟩ := tally.head r early
      exact ⟨c, List.mem_append_left _ visited, known⟩
    · exact ⟨b, by simp, addition.head r late, addition.loop r late⟩
  · rcases List.mem_append.mp member with early | late
    · rw [counted c early]
      exact tally.loops c early inUse atHead
    · obtain rfl := List.mem_singleton.mp late
      rw [here]
      exact addition.loops inUse atHead
  · rcases List.mem_append.mp member with early | late
    · rw [counted c early (!·.isLoop)]
      exact tally.further c early
    · obtain rfl := List.mem_singleton.mp late
      rw [here (!·.isLoop)]
      exact addition.further
  · rcases List.mem_append.mp member with early | late
    · rcases List.mem_append.mp among with early' | late'
      · exact tally.first r early isCond loop early' tests
      · rw [addition.head loop late']
        exact (old r early).symm
    · rcases List.mem_append.mp among with early' | late'
      · rw [addition.head r late]
        exact old loop early'
      · cases tests.symm.trans (addition.first r late isCond loop late')
  · rcases List.mem_append.mp member with early | late
    · rcases List.mem_append.mp among with early' | late'
      · exact tally.last r early isCond loop early' tests
      · -- the last block of a new loop is not before its head
        intro last
        obtain ⟨c, visited, atHead, _⟩ := tally.head r early
        obtain ⟨_, parent, rfl⟩ := addition.loop loop late' (Region.isLoop_of_testsLast tests)
        obtain ⟨kind, made⟩ := v.loopRegion_kind b
        simp only [Region.loopLast?, made, atHead] at last
        obtain ⟨l, chosen, same⟩ := Option.map_eq_some_iff.mp last
        have above := oriented.last_le atBlock chosen
        have below := lower c visited
        rw [Fin.ext same] at above
        omega
    · rw [addition.head r late]
      exact addition.last r late isCond loop among tests

theorem findAll_tally (oriented : v.Oriented start reached) {order : List (Fin n)} (all : ∀ b ∈ order, reached b)
    (falling : order.Pairwise fun a b => v.number b < v.number a) (tally : v.Tally done f.regions)
    (lower : ∀ c ∈ done, ∀ b ∈ order, v.number b < v.number c)
    (run : order.foldlM (fun f b => v.findAt b f) f = .ok f') : v.Tally (done ++ order) f'.regions := by
  induction order generalizing done f with
  | nil =>
    cases run
    simpa using tally
  | cons b rest ih =>
    obtain ⟨below, falling⟩ := List.pairwise_cons.mp falling
    rw [List.foldlM_cons] at run
    obtain ⟨mid, first, others⟩ := bind_eq_ok.mp run
    obtain ⟨added, regions, addition⟩ := findAt_adds first
    have here := tally.add oriented addition (all b (.head _)) fun c member => lower c member b (.head _)
    rw [← regions] at here
    have last := ih (fun c member => all c (.tail _ member)) falling here (fun c member d among => ?_) others
    · simpa using last
    · rcases List.mem_append.mp member with early | late
      · exact lower c early d (.tail _ among)
      · rw [List.mem_singleton.mp late]
        exact below d among

end Tally

end View

namespace Graph

variable {g found : Graph} {notes : List Diagnostic}

/-- An edge in use goes back to the block. -/
def HeadsLoop (g : Graph) (h : BlockId) : Prop :=
  ∃ (e : EdgeId) (edge : Edge), g.edges[e]? = some edge ∧ edge.removed = false ∧ edge.back = true ∧ edge.target = h

theorem Reflects.exists_in {f : Flow g.size} (reflects : g.Reflects f) (wired : g.Wired) {b : Fin g.size} {e : EdgeId}
    {edge : Edge} (found : g.edges[e]? = some edge) (used : edge.removed = false) (target : edge.target = b) :
    ∃ arc ∈ f.ins.get b, arc.edge = e := by
  have enters := (wired.mem_ins b e).mpr ⟨_, edge, found, used, rfl, target⟩
  rw [← reflects.ins b] at enters
  exact List.mem_map.mp enters

theorem Reflects.isLoopHead_iff {f : Flow g.size} (reflects : g.Reflects f) (wired : g.Wired) (b : Fin g.size) :
    (View.mk f g.blocks.toVector).isLoopHead b = true ↔ g.HeadsLoop b := by
  rw [View.isLoopHead, List.any_eq_true]
  constructor
  · rintro ⟨arc, enters, back⟩
    obtain ⟨edge, found, used, _, target, _, marked⟩ := reflects.in_shows b arc enters
    obtain rfl := reflects.in_target wired enters
    exact ⟨arc.edge, edge, found, used, marked.trans back, target⟩
  · rintro ⟨e, edge, found, used, back, target⟩
    obtain ⟨arc, member, rfl⟩ := reflects.exists_in wired found used target
    obtain ⟨edge', found', _, _, _, _, marked⟩ := reflects.in_shows b arc member
    cases found.some_unique found'
    exact ⟨arc, member, marked.symm.trans back⟩

/-- The search for regions after a search in depth visits the reachable blocks, each once. -/
theorem Searched.findRegions_tally (searched : g.Searched) (wired : g.Wired)
    (run : g.findRegions = .ok (found, notes)) :
    ∃ (f : Flow g.size) (order : List (Fin g.size)), g.Reflects f ∧ (∀ b, b ∈ order ↔ g.Reachable b) ∧
      (View.mk f g.blocks.toVector).Tally order found.regions ∧ found = { g with regions := found.regions } := by
  obtain ⟨f, order, early, last, _, reflects, all, falling, finds, rfl⟩ := searched.findRegions_finds wired run
  have none : (View.mk f g.blocks.toVector).Tally [] (⟨[], early⟩ : Findings).regions :=
    ⟨by simp, by simp, by simp, by simp, by simp⟩
  have tally := View.findAll_tally (searched.oriented wired reflects) (fun b member => (all b).mp member) falling none
    (by simp) finds
  exact ⟨f, order, reflects, all, tally, rfl⟩

/-- Loops are found once and their tests are used once: a reachable block that an edge goes back to heads one loop and no
other block heads one, every block heads at most one region besides, and the test of a loop is not a region of its own. -/
structure LoopsOnce (g : Graph) : Prop where
  one (h : BlockId) : g.Reachable h → g.HeadsLoop h → g.regions.countP (fun r => r.isLoop && r.isHead h) = 1
  only (r : Region) : r ∈ g.regions → r.isLoop = true → g.Reachable r.head ∧ g.HeadsLoop r.head
  further (b : BlockId) : g.regions.countP (fun r => !r.isLoop && r.isHead b) ≤ 1
  first (r : Region) : r ∈ g.regions → r.isCond = true → ∀ loop ∈ g.regions, loop.testsFirst = true → loop.head ≠ r.head
  last (r : Region) : r ∈ g.regions → r.isCond = true → ∀ loop ∈ g.regions, loop.testsLast = true →
    loop.loopLast? ≠ some r.head

theorem HeadsLoop.live (wired : g.Wired) {h : BlockId} (heads : g.HeadsLoop h) : g.Live h := by
  obtain ⟨e, edge, found, used, _, target⟩ := heads
  exact (wired.ends_live e _ _ ⟨edge, found, used, rfl, target⟩).2

theorem Searched.findRegions_loopsOnce (searched : g.Searched) (wired : g.Wired)
    (run : g.findRegions = .ok (found, notes)) : found.LoopsOnce := by
  obtain ⟨f, order, reflects, all, tally, same⟩ := searched.findRegions_tally wired run
  have reachable (b : BlockId) : found.Reachable b ↔ g.Reachable b := by rw [same]; rfl
  have headsLoop (b : BlockId) : found.HeadsLoop b ↔ g.HeadsLoop b := by rw [same]; rfl
  refine ⟨fun h reached heads => ?_, fun r member isLoop => ?_, fun b => ?_, tally.first, tally.last⟩
  · rw [reachable] at reached
    rw [headsLoop] at heads
    obtain ⟨block, atBlock, inUse⟩ := heads.live wired
    have inside := wired.reachable_lt searched.inside reached
    rw [payload_found ⟨h, inside⟩] at atBlock
    cases atBlock
    exact tally.loops ⟨h, inside⟩ ((all _).mpr reached) inUse ((reflects.isLoopHead_iff wired _).mpr heads)
  · obtain ⟨b, visited, atHead, loop⟩ := tally.head r member
    rw [reachable, headsLoop, atHead]
    exact ⟨(all b).mp visited, (reflects.isLoopHead_iff wired b).mp (loop isLoop).1⟩
  · by_cases visited : ∃ c ∈ order, c.val = b
    · obtain ⟨c, visited, rfl⟩ := visited
      exact tally.further c visited
    · have other (r : Region) (member : r ∈ found.regions) : r.head ≠ b := by
        rintro rfl
        obtain ⟨c, listed, atHead, _⟩ := tally.head r member
        exact visited ⟨c, listed, atHead.symm⟩
      rw [View.countP_of_other other]
      exact Nat.zero_le 1

end Graph

namespace MethodInput

/-- Where a method can be analysed, its loops are found once and their tests are used once. -/
theorem decompile_loops_once {input : MethodInput} {plan : Plan} {g g' : Graph}
    (built : (Graph.ofMethod input).run = .ok (.ok g)) (solved : g.solve plan.options = .ok (.ok (), g')) :
    ∃ (d : Decompiled) (last : Graph), input.decompile plan = .ok d ∧ d.graph = some last ∧ last.LoopsOnce := by
  obtain ⟨d, before, last, notes, run, atGraph, wired, searched, found⟩ := decompile_findRegions built solved
  exact ⟨d, last, run, atGraph, searched.findRegions_loopsOnce wired found⟩

/-- A loop that begins with a condition, and in it a loop of one block. Both test at their last block. -/
def drained : MethodInput where
  info := MethodInfo.plain "drained" 2 1
  ops := [⟨0, 0, -1, .load .int 0⟩, ⟨1, 0, -1, .jumpZero .int .eq 3⟩, ⟨2, 0, -1, .inc .int 0 (-1)⟩,
    ⟨3, 0, -1, .inc .int 1 (-1)⟩, ⟨4, 0, -1, .load .int 1⟩, ⟨5, 0, -1, .jumpZero .int .ne 3⟩, ⟨6, 0, -1, .load .int 0⟩,
    ⟨7, 0, -1, .jumpZero .int .ne 0⟩, ⟨8, 0, -1, .leave .void⟩]
  exceptions := []

theorem decompile_loops_once_drained : ∃ d last, drained.decompile ⟨.none, {}⟩ = .ok d ∧ d.graph = some last ∧
    last.LoopsOnce ∧ last.regions.map (fun r => (r.head, r.kind)) =
      [(0, .loop .untilFalse (some 3)), (0, .cond .negated), (2, .loop .untilFalse (some 2))] := by
  have kinds : (drained.decompile ⟨.none, {}⟩).toOption.any fun d => d.graph.any fun g =>
      g.regions.map (fun r => (r.head, r.kind)) =
        [(0, .loop .untilFalse (some 3)), (0, .cond .negated), (2, .loop .untilFalse (some 2))] := by decide +kernel
  obtain ⟨g, g', built, solved⟩ := Graph.solves_of_isSome (show (Graph.solved? drained {}).isSome by decide +kernel)
  obtain ⟨d, last, run, atGraph, once⟩ := @decompile_loops_once drained ⟨.none, {}⟩ g g' built solved
  obtain ⟨d', run', kinds⟩ := of_any_toOption kinds
  cases Except.ok.inj (run.symm.trans run')
  rw [atGraph, Option.any_some] at kinds
  exact ⟨d, last, run, atGraph, once, of_decide_eq_true kinds⟩

end MethodInput

end Unstack
