import Unstack.Proofs.Graph.Resolved
import Unstack.Proofs.Region.Follow

namespace Unstack

variable {s : Stmt}

/-- What a statement adds to the number of monitors that are held. -/
def Stmt.monitorStep (s : Stmt) : Int :=
  match s.monitor? with
  | some .enter => 1
  | some .exit => -1
  | none => 0

theorem Stmt.monitorStep_of_enter (enters : s.monitor? = some .enter) : s.monitorStep = 1 := by
  simp [monitorStep, enters]

theorem Stmt.monitorStep_of_exit (exits : s.monitor? = some .exit) : s.monitorStep = -1 := by
  simp [monitorStep, exits]

theorem Stmt.monitorStep_of_none (other : s.monitor? = none) : s.monitorStep = 0 := by
  simp [monitorStep, other]

def monitorBalance (stmts : List Stmt) : Int := (stmts.map Stmt.monitorStep).sum

/-- The statements bring the depth to zero, at some point. -/
def Exhausts (depth : Int) (stmts : List Stmt) : Prop := ∃ before, before <+: stmts ∧ depth + monitorBalance before = 0

theorem exhausts_nil {depth : Int} : Exhausts depth [] ↔ depth = 0 := by simp [Exhausts, monitorBalance]

theorem exhausts_cons {depth : Int} {rest : List Stmt} :
    Exhausts depth (s :: rest) ↔ depth = 0 ∨ Exhausts (depth + s.monitorStep) rest := by
  simp only [Exhausts, List.prefix_cons_iff]
  constructor
  · rintro ⟨_, rfl | ⟨before, rfl, more⟩, zero⟩
    · exact .inl (by simpa [monitorBalance] using zero)
    · exact .inr ⟨before, more, by simpa [monitorBalance, add_assoc] using zero⟩
  · rintro (zero | ⟨before, more, zero⟩)
    · exact ⟨[], .inl rfl, by simpa [monitorBalance] using zero⟩
    · exact ⟨s :: before, .inr ⟨before, rfl, more⟩, by simpa [monitorBalance, add_assoc] using zero⟩

theorem monitorBalance_cons (s : Stmt) (rest : List Stmt) :
    monitorBalance (s :: rest) = s.monitorStep + monitorBalance rest := by simp [monitorBalance]

/-- Counting stops exactly where the depth gets to zero. -/
theorem monitorDepth?_eq_none_iff {depth : Nat} (held : 1 ≤ depth) (stmts : List Stmt) :
    monitorDepth? depth stmts = none ↔ Exhausts depth stmts := by
  fun_induction monitorDepth? depth stmts with
  | case1 depth =>
    rw [exhausts_nil]
    exact iff_of_false (by simp) (by omega)
  | case2 depth s rest enters ih =>
    rw [exhausts_cons, ih (by omega), or_iff_right (by omega), Stmt.monitorStep_of_enter enters]
    rfl
  | case3 depth s rest exits last =>
    refine iff_of_true rfl (exhausts_cons.mpr (.inr ⟨[], List.nil_prefix, ?_⟩))
    simp [Stmt.monitorStep_of_exit exits, monitorBalance]
    omega
  | case4 depth s rest exits more ih =>
    rw [exhausts_cons, ih (by omega), or_iff_right (by omega), Stmt.monitorStep_of_exit exits, Nat.cast_sub (by omega)]
    rfl
  | case5 depth s rest other ih =>
    rw [exhausts_cons, ih held, or_iff_right (by omega), Stmt.monitorStep_of_none other, add_zero]

/-- A monitor that is still held is counted exactly. -/
theorem monitorDepth?_eq_some {depth depth' : Nat} {stmts : List Stmt} (held : 1 ≤ depth)
    (counted : monitorDepth? depth stmts = some depth') : 1 ≤ depth' ∧ (depth' : Int) = depth + monitorBalance stmts := by
  fun_induction monitorDepth? depth stmts with
  | case1 depth =>
    cases counted
    exact ⟨held, by simp [monitorBalance]⟩
  | case2 depth s rest enters ih =>
    obtain ⟨positive, balance⟩ := ih (by omega) counted
    refine ⟨positive, ?_⟩
    rw [balance, monitorBalance_cons, Stmt.monitorStep_of_enter enters]
    omega
  | case3 => cases counted
  | case4 depth s rest exits more ih =>
    obtain ⟨positive, balance⟩ := ih (by omega) counted
    refine ⟨positive, ?_⟩
    rw [balance, monitorBalance_cons, Stmt.monitorStep_of_exit exits]
    omega
  | case5 depth s rest other ih =>
    obtain ⟨positive, balance⟩ := ih held counted
    refine ⟨positive, ?_⟩
    rw [balance, monitorBalance_cons, Stmt.monitorStep_of_none other]
    omega

namespace View

variable {n depth : Nat} {v : View n} {head : Fin n} {body : SyncBody n} {b : Fin n}

theorem Holds.positive (holds : v.Holds head b depth) : 1 ≤ depth := by
  induction holds with
  | first => exact Nat.le_refl 1
  | onward _ counted _ ih => exact (monitorDepth?_eq_some ih counted).1

/-- Depths that fit together along all edges are the only ones. -/
theorem Holds.eq_of_fits {depths : Fin n → Nat} (first : ∀ b, v.targetOf .sequence head = some b → depths b = 1)
    (onward : ∀ b, ∀ c ∈ v.flow.forwardSuccs b, (monitorDepth? (depths b) (v.block b).stmts).all (· = depths c))
    (holds : v.Holds head b depth) : depth = depths b := by
  induction holds with
  | first found => exact (first _ found).symm
  | @onward b c depth depth' _ counted leads ih =>
    subst ih
    simpa [counted] using onward b c leads

theorem Explored.seen_of_holds (explored : v.Explored head [] body)
    (single : ∀ b depth depth', v.Holds head b depth → v.Holds head b depth' → depth = depth')
    (holds : v.Holds head b depth) : b ∈ body.seen := by
  induction holds with
  | first found => exact (explored.first _ found).resolve_right (by simp)
  | @onward b c depth depth' holds counted leads ih =>
    obtain ⟨depth'', holds', _, onward⟩ := explored.settled b ih
    cases single b depth depth'' holds holds'
    exact (onward depth' counted c leads).resolve_right (by simp)

/-- If every block is always entered with the same depth, the members are the blocks that can be entered, except the handlers
that give up the monitor. -/
theorem Explored.mem_iff (explored : v.Explored head [] body)
    (single : ∀ b depth depth', v.Holds head b depth → v.Holds head b depth' → depth = depth') (b : Fin n) :
    b ∈ body.members ↔
      ∃ depth, v.Holds head b depth ∧ ¬ (v.isHandler b = true ∧ monitorDepth? depth (v.block b).stmts = none) := by
  constructor
  · intro member
    obtain ⟨depth, holds, inside, _⟩ := explored.settled b (explored.members b member)
    exact ⟨depth, holds, inside.mp member⟩
  · rintro ⟨depth, holds, kept⟩
    obtain ⟨depth', holds', inside, _⟩ := explored.settled b (explored.seen_of_holds single holds)
    cases single b depth depth' holds holds'
    exact inside.mpr kept

theorem syncRegion_body (v : View n) (head : Fin n) (b : BlockId) :
    b ∈ (v.syncRegion head).membersOf .body ↔ ∃ c ∈ (v.syncBody head).members, c.val = b := by
  simp only [syncRegion]
  generalize made : ({ Region.ofHead head _ with follow := _ } : Region) = region
  obtain ⟨members, _⟩ := region.membersOf_addMembers .body ((v.syncBody head).members.map Fin.val)
  have none : region.membersOf .body = [] := by
    rw [← made]
    rfl
  rw [none] at members
  exact (members b).trans (by simp)

end View

namespace Graph

variable {g : Graph}

/-- An edge that does not go back leaves the one block for the other. -/
def LeavesFor (g : Graph) (b c : BlockId) : Prop :=
  ∃ listed entry, g.outs b = .ok listed ∧ entry ∈ listed ∧ entry.2.back = false ∧ entry.2.target = c

/-- Control may come to the block behind the head with this depth, which is one at the start, and which no block on the way
brings to zero. -/
inductive EnteredAt (g : Graph) (head : BlockId) : BlockId → Int → Prop where
  | first {b : BlockId} : g.succ head = .ok (some b) → EnteredAt g head b 1
  | onward {b c : BlockId} {block : Block} {depth : Int} : EnteredAt g head b depth → g.blocks[b]? = some block →
    ¬ Exhausts depth block.stmts → g.LeavesFor b c → EnteredAt g head c (depth + monitorBalance block.stmts)

section Resolves

variable {v : View g.size} (resolves : g.Resolves v)

include resolves

theorem Resolves.leavesFor_iff {b : Fin g.size} {c : BlockId} : g.LeavesFor b c ↔ ∃ i ∈ v.flow.forwardSuccs b, i.val = c := by
  constructor
  · rintro ⟨_, entry, run, member, ahead, rfl⟩
    cases (resolves.outs_eq_ok b).symm.trans run
    obtain ⟨arc, leaves, rfl⟩ := List.mem_map.mp member
    obtain ⟨_, target, _, back⟩ := (resolves.out_names leaves).read
    exact ⟨arc.target, View.mem_forwardSuccs.mpr ⟨arc, leaves, back ▸ ahead, rfl⟩, target.symm⟩
  · rintro ⟨i, leads, rfl⟩
    obtain ⟨arc, leaves, ahead, rfl⟩ := View.mem_forwardSuccs.mp leads
    obtain ⟨_, target, _, back⟩ := (resolves.out_names leaves).read
    exact ⟨_, (arc.edge, g.read arc), resolves.outs_eq_ok b, List.mem_map_of_mem leaves, back.trans ahead, target⟩

theorem Resolves.enteredAt_iff {head : Fin g.size} {b : BlockId} {depth : Int} :
    g.EnteredAt head b depth ↔ ∃ (i : Fin g.size) (held : Nat), v.Holds head i held ∧ i.val = b ∧ (held : Int) = depth := by
  constructor
  · intro entered
    induction entered with
    | first run =>
      rw [resolves.succ_eq_ok head] at run
      obtain ⟨i, found, rfl⟩ := Option.map_eq_some_iff.mp (Except.ok.inj run)
      exact ⟨i, 1, .first found, rfl, rfl⟩
    | onward _ found lasts leads ih =>
      obtain ⟨i, held, holds, rfl, rfl⟩ := ih
      cases found.some_unique (resolves.block i)
      obtain ⟨j, behind, rfl⟩ := resolves.leavesFor_iff.mp leads
      cases counted : monitorDepth? held (v.block i).stmts with
      | none => exact absurd ((monitorDepth?_eq_none_iff holds.positive _).mp counted) lasts
      | some held' =>
        exact ⟨j, held', .onward holds counted behind, rfl, (monitorDepth?_eq_some holds.positive counted).2⟩
  · rintro ⟨i, held, holds, rfl, rfl⟩
    induction holds with
    | @first i found => exact .first (by rw [resolves.succ_eq_ok head, found]; rfl)
    | @onward i j held held' holds counted behind ih =>
      rw [(monitorDepth?_eq_some holds.positive counted).2]
      refine .onward ih (resolves.block i) (fun ends => ?_) (resolves.leavesFor_iff.mpr ⟨j, behind, rfl⟩)
      rw [(monitorDepth?_eq_none_iff holds.positive _).mpr ends] at counted
      cases counted

end Resolves

/-- The block is a handler that gives up the monitor if it is entered with this depth. -/
def Releases (g : Graph) (b : BlockId) (depth : Int) : Prop :=
  g.isHandler b = .ok true ∧ ∃ block, g.blocks[b]? = some block ∧ Exhausts depth block.stmts

theorem Resolves.releases_iff {v : View g.size} (resolves : g.Resolves v) {b : Fin g.size} {held : Nat} (positive : 1 ≤ held) :
    g.Releases b held ↔ v.isHandler b = true ∧ monitorDepth? held (v.block b).stmts = none := by
  rw [Releases, resolves.isHandler_eq_ok b, monitorDepth?_eq_none_iff positive, resolves.block b]
  simp

/-- Every block of a synchronized region can be entered while the monitor of the head is held. If each block is always
entered with the same depth, then the other way round the region holds every block that can be entered so, with the one
exception of handlers that give up the monitor. -/
theorem syncRegion_matches_depth {v : View g.size} (viewed : g.view = .ok v) (head : Fin g.size) :
    (∀ b ∈ (v.syncRegion head).membersOf .body, ∃ depth, g.EnteredAt head b depth) ∧
    ((∀ b depth depth', g.EnteredAt head b depth → g.EnteredAt head b depth' → depth = depth') →
      ∀ b, b ∈ (v.syncRegion head).membersOf .body ↔ ∃ depth, g.EnteredAt head b depth ∧ ¬ g.Releases b depth) := by
  have resolves := resolves_of_view viewed
  have explored := v.syncBody_explored head
  refine ⟨fun b member => ?_, fun single b => ?_⟩
  · obtain ⟨i, inside, rfl⟩ := (v.syncRegion_body head b).mp member
    obtain ⟨held, holds, _⟩ := explored.settled i (explored.members i inside)
    exact ⟨held, resolves.enteredAt_iff.mpr ⟨i, held, holds, rfl, rfl⟩⟩
  · have alone (i : Fin g.size) (held held' : Nat) (holds : v.Holds head i held) (holds' : v.Holds head i held') :
        held = held' :=
      Int.ofNat.inj (single i held held' (resolves.enteredAt_iff.mpr ⟨i, held, holds, rfl, rfl⟩)
        (resolves.enteredAt_iff.mpr ⟨i, held', holds', rfl, rfl⟩))
    rw [v.syncRegion_body head b]
    constructor
    · rintro ⟨i, inside, rfl⟩
      obtain ⟨held, holds, kept⟩ := (explored.mem_iff alone i).mp inside
      exact ⟨held, resolves.enteredAt_iff.mpr ⟨i, held, holds, rfl, rfl⟩, mt (resolves.releases_iff holds.positive).mp kept⟩
    · rintro ⟨_, entered, kept⟩
      obtain ⟨i, held, holds, rfl, rfl⟩ := resolves.enteredAt_iff.mp entered
      exact ⟨i, (explored.mem_iff alone i).mpr ⟨held, holds, mt (resolves.releases_iff holds.positive).mpr kept⟩, rfl⟩

end Graph

namespace MethodInput

/-- Two nested locks. The handler gives up the outer one if an exception is raised while the inner one is given up. -/
def nestedLocks : MethodInput where
  info := MethodInfo.plain "nestedLocks" 3 1
  ops := [⟨0, 0, -1, .load .anyObject 0⟩, ⟨1, 0, -1, .monitor .enter⟩, ⟨2, 0, -1, .load .anyObject 1⟩, ⟨3, 0, -1, .monitor .enter⟩,
    ⟨4, 0, -1, .load .anyObject 1⟩, ⟨5, 0, -1, .monitor .exit⟩, ⟨6, 0, -1, .load .anyObject 0⟩, ⟨7, 0, -1, .monitor .exit⟩,
    ⟨8, 0, -1, .leave .void⟩, ⟨9, 0, -1, .store .throwable 2⟩, ⟨10, 0, -1, .load .anyObject 0⟩, ⟨11, 0, -1, .monitor .exit⟩,
    ⟨12, 0, -1, .load .throwable 2⟩, ⟨13, 0, -1, .raise⟩]
  exceptions := [⟨4, 6, 9, none⟩]

/-- The number of locks that are held on entry to each block of `nestedLocks`. -/
def locksHeld (b : BlockId) : Nat := [0, 1, 2, 1, 0, 1, 0].getD b 0

end MethodInput

namespace Graph

/-- The outer lock is held in the three blocks of the region, in the second one together with the inner lock. -/
theorem syncRegion_matches_depth_nestedLocks : ∃ (g : Graph) (v : View g.size) (head : Fin g.size), g.view = .ok v ∧
    v.isSyncHead head = true ∧ (v.syncRegion head).membersOf .body = [1, 2, 3] ∧
    ∀ b, b ∈ [1, 2, 3] ↔ ∃ depth, g.EnteredAt head b depth ∧ ¬ g.Releases b depth := by
  have shaped : (MethodInput.nestedLocks.decompile ⟨.none, {}⟩).toOption.any fun d => d.graph.any fun g =>
      g.view.toOption.any fun v => (List.finRange g.size).any fun head =>
        decide (v.isSyncHead head = true ∧ (v.syncRegion head).membersOf .body = [1, 2, 3] ∧
          (∀ b : Fin g.size, v.targetOf .sequence head = some b → MethodInput.locksHeld b = 1) ∧
          ∀ b c : Fin g.size, c ∈ v.flow.forwardSuccs b →
            (monitorDepth? (MethodInput.locksHeld b) (v.block b).stmts).all (· = MethodInput.locksHeld c)) := by
    decide +kernel
  obtain ⟨_, _, shaped⟩ := of_any_toOption shaped
  obtain ⟨g, _, shaped⟩ := (Option.any_eq_true _ _).mp shaped
  obtain ⟨v, viewed, shaped⟩ := of_any_toOption shaped
  obtain ⟨head, _, shaped⟩ := List.any_eq_true.mp shaped
  obtain ⟨atHead, members, first, onward⟩ := of_decide_eq_true shaped
  have resolves := resolves_of_view viewed
  refine ⟨g, v, head, viewed, atHead, members, ?_⟩
  rw [← members]
  refine (syncRegion_matches_depth viewed head).2 fun b depth depth' entered entered' => ?_
  obtain ⟨i, held, holds, rfl, rfl⟩ := resolves.enteredAt_iff.mp entered
  obtain ⟨j, held', holds', same, rfl⟩ := resolves.enteredAt_iff.mp entered'
  cases Fin.ext same
  rw [holds.eq_of_fits first onward, holds'.eq_of_fits first onward]

end Graph

end Unstack
