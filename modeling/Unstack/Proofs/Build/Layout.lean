import Mathlib.Data.List.Infix
import Unstack.Proofs.Graph.Exit

namespace Unstack

variable {o : Operation}

/-- The index behind the last operation of a block. -/
def Block.stop (block : Block) : Nat := block.pc + block.ops.length

/-- Operations that are numbered one by one from `first` on. -/
def Consecutive (first : Nat) (ops : List Operation) : Prop := ∀ (i : Nat) (o : Operation), ops[i]? = some o → o.pc = first + i

namespace Consecutive

variable {first : Nat} {ops : List Operation}

theorem numbered (m : MethodInput) : Consecutive 0 m.numbered := by
  intro i o found
  simp only [MethodInput.numbered, List.getElem?_map, List.getElem?_zipIdx, Option.map_map,
    Option.map_eq_some_iff] at found
  obtain ⟨source, _, rfl⟩ := found
  simp

/-- A stretch of numbered operations is numbered from where it begins. -/
theorem of_part {part : List Operation} (consecutive : Consecutive 0 ops)
    (within : part <+: ops.drop first) : Consecutive first part := by
  intro i o found
  obtain ⟨rest, whole⟩ := within
  have inside := found.lt_length
  have atIndex : ops[first + i]? = some o := by
    rw [← List.getElem?_drop, ← whole, List.getElem?_append_left inside, found]
  simpa using consecutive (first + i) o atIndex

theorem tail {rest : List Operation} (consecutive : Consecutive first (o :: rest)) : Consecutive (first + 1) rest := by
  intro i o' found
  have := consecutive (i + 1) o' (by simpa using found)
  omega

theorem takeWhile_eq (consecutive : Consecutive first ops) (pc : Nat) :
    ops.takeWhile (fun o => o.pc < pc) = ops.take (pc - first) := by
  induction ops generalizing first with
  | nil => simp
  | cons o rest ih =>
    have atFirst : o.pc = first := by simpa using consecutive 0 o rfl
    by_cases before : first < pc
    · rw [List.takeWhile_cons, if_pos (by simpa [atFirst] using before), ih consecutive.tail,
        show pc - first = pc - (first + 1) + 1 by omega, List.take_succ_cons]
    · rw [List.takeWhile_cons, if_neg (by simpa [atFirst] using before), show pc - first = 0 by omega, List.take_zero]

theorem dropWhile_eq (consecutive : Consecutive first ops) (pc : Nat) :
    ops.dropWhile (fun o => o.pc < pc) = ops.drop (pc - first) := by
  induction ops generalizing first with
  | nil => simp
  | cons o rest ih =>
    have atFirst : o.pc = first := by simpa using consecutive 0 o rfl
    by_cases before : first < pc
    · rw [List.dropWhile_cons, if_pos (by simpa [atFirst] using before), ih consecutive.tail,
        show pc - first = pc - (first + 1) + 1 by omega, List.drop_succ_cons]
    · rw [List.dropWhile_cons, if_neg (by simpa [atFirst] using before), show pc - first = 0 by omega, List.drop_zero]

theorem exists_mem_iff (consecutive : Consecutive first ops) (pc : Nat) :
    (∃ o ∈ ops, o.pc = pc) ↔ first ≤ pc ∧ pc < first + ops.length := by
  constructor
  · rintro ⟨o, member, rfl⟩
    obtain ⟨i, atIndex⟩ := List.mem_iff_getElem?.mp member
    have inside := atIndex.lt_length
    have := consecutive i o atIndex
    omega
  · rintro ⟨lower, upper⟩
    have inside : pc - first < ops.length := by omega
    have atIndex := List.getElem?_eq_getElem inside
    refine ⟨_, List.mem_of_getElem? atIndex, ?_⟩
    have := consecutive _ _ atIndex
    omega

end Consecutive

namespace Scan

/-- Each operation gets its new owner, and the others keep theirs. -/
theorem setOwners_eq (b : BlockId) (ops : List Operation) (owners : Array (Option BlockId))
    (inside : ∀ o ∈ ops, o.pc < owners.size) :
    ∃ owners', ops.foldlM (setOwner · b) owners = .ok owners' ∧ owners'.size = owners.size ∧
      ∀ p : Nat, owners'[p]? = if ∃ o ∈ ops, o.pc = p then some (some b) else owners[p]? := by
  induction ops generalizing owners with
  | nil => exact ⟨owners, rfl, rfl, by simp⟩
  | cons o rest ih =>
    have first := inside o (.head _)
    obtain ⟨owners', run, size, agree⟩ := ih (owners.setIfInBounds o.pc (some b)) fun o' member => by
      simpa using inside o' (.tail o member)
    refine ⟨owners', ?_, by simpa using size, fun p => ?_⟩
    · rw [List.foldlM_cons, setOwner, if_pos first, ok_bind, run]
    · rw [agree, Array.getElem?_setIfInBounds]
      by_cases later : ∃ o' ∈ rest, o'.pc = p
      · obtain ⟨o', member, atPc⟩ := later
        rw [if_pos ⟨o', member, atPc⟩, if_pos ⟨o', .tail o member, atPc⟩]
      · rw [if_neg later]
        by_cases now : o.pc = p
        · rw [if_pos now, if_pos (now ▸ first), if_pos ⟨o, .head _, now⟩]
        · rw [if_neg now, if_neg]
          rintro ⟨o', member, atPc⟩
          rcases List.mem_cons.mp member with rfl | member
          · exact now atPc
          · exact later ⟨o', member, atPc⟩

/-- After `k` operations: every scanned operation is in one block, a block is a part of the method without
gaps, and blocks start exactly at those scanned operations that are known to start one. -/
structure Layout (ops : List Operation) (k : Nat) (s : Scan) : Prop where
  scanned : k ≤ ops.length
  owners : s.blockOf.size = ops.length
  segment (b : BlockId) (block : Block) : s.graph.blocks[b]? = some block →
    block.ops ≠ [] ∧ block.ops <+: ops.drop block.pc ∧ block.stop ≤ k ∧ block.removed = false
  owner (p : Nat) (b : BlockId) : s.blockOf[p]? = some (some b) ↔
    ∃ block, s.graph.blocks[b]? = some block ∧ block.pc ≤ p ∧ p < block.stop
  covered (p : Nat) : p < k → ∃ b : BlockId, s.blockOf[p]? = some (some b)
  starts (p : Nat) : p < k → (p ∈ s.leaders ↔ ∃ (b : BlockId) (block : Block), s.graph.blocks[b]? = some block ∧ block.pc = p)
  raw : s.graph.Raw

namespace Layout

variable {ops : List Operation} {k : Nat} {s : Scan} {b : BlockId} {block : Block} {graph : Graph} {pc : Nat}

/-- The layout does not depend on links and on which block is open. -/
theorem relink (layout : Layout ops k s) (links : List (BlockId × Nat × Link)) (current : Option BlockId) :
    Layout ops k { s with links, current } :=
  ⟨layout.scanned, layout.owners, layout.segment, layout.owner, layout.covered, layout.starts, layout.raw⟩

/-- A block owns the operation that it starts with. -/
theorem start_owns (layout : Layout ops k s) (found : s.graph.blocks[b]? = some block) : s.blockOf[block.pc]? = some (some b) := by
  have nonempty := List.length_pos_iff.mpr (layout.segment b block found).1
  exact (layout.owner _ _).mpr ⟨block, found, Nat.le_refl _, by unfold Block.stop; omega⟩

/-- A block that holds an operation at which a block starts starts there. -/
theorem starts_at_leader (layout : Layout ops k s) {p : Nat} (inside : p < k)
    (leader : p ∈ s.leaders) (owns : s.blockOf[p]? = some (some b)) (found : s.graph.blocks[b]? = some block) :
    block.pc = p := by
  obtain ⟨b', block', found', rfl⟩ := (layout.starts p inside).mp leader
  have same : some (some b) = some (some b') := owns.symm.trans (layout.start_owns found')
  simp only [Option.some.injEq] at same
  subst same
  cases found.some_unique found'
  rfl

theorem last (layout : Layout ops k s) (consecutive : Consecutive 0 ops) (found : s.graph.blocks[b]? = some block)
    (atEnd : block.ops.getLast? = some o) : o.pc + 1 = block.stop ∧ ops[o.pc]? = some o := by
  obtain ⟨nonempty, within, _⟩ := layout.segment b block found
  have positive := List.length_pos_iff.mpr nonempty
  rw [List.getLast?_eq_getElem?] at atEnd
  have pc := consecutive.of_part within _ _ atEnd
  refine ⟨by unfold Block.stop; omega, ?_⟩
  obtain ⟨rest, whole⟩ := within
  rw [pc, ← List.getElem?_drop, ← whole, List.getElem?_append_left (by omega), atEnd]

/-- The next operation becomes the last of a block `b`, which is `grown` then. -/
theorem grow (layout : Layout ops k s) (inside : k < ops.length) {grown : Block}
    (blocks : ∀ i : BlockId, graph.blocks[i]? = if i = b then some grown else s.graph.blocks[i]?)
    (own : grown.ops ≠ [] ∧ grown.ops <+: ops.drop grown.pc ∧ grown.removed = false ∧ grown.Raw) (stop : grown.stop = k + 1)
    (before : ∀ p < k, grown.pc ≤ p ↔ ∃ old, s.graph.blocks[b]? = some old ∧ old.pc ≤ p ∧ p < old.stop)
    (start : ∀ p < k, grown.pc = p ↔ ∃ old, s.graph.blocks[b]? = some old ∧ old.pc = p)
    (leader : k ∈ s.leaders ↔ grown.pc = k) :
    Layout ops (k + 1) { s with graph, blockOf := s.blockOf.setIfInBounds k (some b) } := by
  have size := layout.owners
  have atGrown : graph.blocks[b]? = some grown := (blocks b).trans (if_pos rfl)
  have elsewhere {i : BlockId} (other : i ≠ b) : graph.blocks[i]? = s.graph.blocks[i]? :=
    (blocks i).trans (if_neg other)
  have split {i : BlockId} {block : Block} (atIndex : graph.blocks[i]? = some block) :
      i = b ∧ block = grown ∨ i ≠ b ∧ s.graph.blocks[i]? = some block := by
    by_cases here : i = b
    · subst here
      exact .inl ⟨rfl, atIndex.some_unique atGrown⟩
    · exact .inr ⟨here, elsewhere here ▸ atIndex⟩
  have reaches : grown.pc ≤ k := by
    have := List.length_pos_iff.mpr own.1
    unfold Block.stop at stop
    omega
  constructor
  case scanned => exact inside
  case owners => simpa using size
  case segment =>
    intro i block atIndex
    rcases split atIndex with ⟨rfl, rfl⟩ | ⟨_, old⟩
    · exact ⟨own.1, own.2.1, by omega, own.2.2.1⟩
    · obtain ⟨nonempty, within, bound, kept⟩ := layout.segment i block old
      exact ⟨nonempty, within, by omega, kept⟩
  case owner =>
    intro p i
    simp only [Array.getElem?_setIfInBounds]
    by_cases now : k = p
    · subst now
      rw [if_pos rfl, if_pos (by omega)]
      constructor
      · intro same
        simp only [Option.some.injEq] at same
        subst same
        exact ⟨grown, atGrown, reaches, by omega⟩
      · rintro ⟨block, atIndex, _, upper⟩
        rcases split atIndex with ⟨rfl, _⟩ | ⟨_, old⟩
        · rfl
        · have := (layout.segment i block old).2.2.1
          omega
    · rw [if_neg now, layout.owner]
      by_cases here : i = b
      · subst here
        rw [atGrown]
        simp only [Option.some.injEq, exists_eq_left']
        constructor
        · rintro ⟨old, atIndex, lower, upper⟩
          have := (layout.segment i old atIndex).2.2.1
          exact ⟨(before p (by omega)).mpr ⟨old, atIndex, lower, upper⟩, by omega⟩
        · rintro ⟨lower, upper⟩
          exact (before p (by omega)).mp lower
      · rw [elsewhere here]
  case covered =>
    intro p below
    simp only [Array.getElem?_setIfInBounds]
    by_cases now : k = p
    · rw [if_pos now, if_pos (by omega)]
      exact ⟨_, rfl⟩
    · rw [if_neg now]
      exact layout.covered p (by omega)
  case starts =>
    intro p below
    have others : (∃ (i : BlockId) (block : Block), graph.blocks[i]? = some block ∧ block.pc = p) ↔
        grown.pc = p ∨ ∃ (i : BlockId) (block : Block), i ≠ b ∧ s.graph.blocks[i]? = some block ∧ block.pc = p := by
      constructor
      · rintro ⟨i, block, atIndex, atStart⟩
        rcases split atIndex with ⟨_, rfl⟩ | ⟨here, old⟩
        · exact .inl atStart
        · exact .inr ⟨i, block, here, old, atStart⟩
      · rintro (atStart | ⟨i, block, here, atIndex, atStart⟩)
        · exact ⟨b, grown, atGrown, atStart⟩
        · exact ⟨i, block, (elsewhere here).trans atIndex, atStart⟩
    rw [others]
    by_cases now : p = k
    · subst now
      rw [leader]
      refine ⟨.inl, ?_⟩
      rintro (atStart | ⟨i, block, _, atIndex, atStart⟩)
      · exact atStart
      · have nonempty := List.length_pos_iff.mpr (layout.segment i block atIndex).1
        have := (layout.segment i block atIndex).2.2.1
        unfold Block.stop at this
        omega
    · rw [layout.starts p (by omega), start p (by omega)]
      constructor
      · rintro ⟨i, block, atIndex, atStart⟩
        by_cases here : i = b
        · exact .inl ⟨block, here ▸ atIndex, atStart⟩
        · exact .inr ⟨i, block, here, atIndex, atStart⟩
      · rintro (⟨block, atIndex, atStart⟩ | ⟨i, block, _, atIndex, atStart⟩)
        · exact ⟨b, block, atIndex, atStart⟩
        · exact ⟨i, block, atIndex, atStart⟩
  case raw =>
    intro i block atIndex
    rcases split atIndex with ⟨_, rfl⟩ | ⟨_, old⟩
    · exact own.2.2.2
    · exact layout.raw i block old

/-- A leader opens a block of its own. -/
theorem openAt (layout : Layout ops k s) (next : ops[k]? = some o) (leader : k ∈ s.leaders) {fresh : Block}
    (pc : fresh.pc = k) (own : fresh.ops = [o]) (used : fresh.removed = false ∧ fresh.Raw)
    (blocks : ∀ i : BlockId, graph.blocks[i]? = if i = s.graph.blocks.size then some fresh else s.graph.blocks[i]?) :
    Layout ops (k + 1) { s with graph, blockOf := s.blockOf.setIfInBounds k (some s.graph.blocks.size) } := by
  obtain ⟨inside, atNext⟩ := List.getElem?_eq_some_iff.mp next
  have outside (old : Block) : s.graph.blocks[s.graph.blocks.size]? ≠ some old := by simp
  refine layout.grow inside blocks ⟨by simp [own], ?_, used⟩ (by simp [Block.stop, pc, own]) ?_ ?_ (by simp [leader, pc])
  · rw [own, pc, List.drop_eq_getElem_cons inside, atNext]
    exact ⟨_, rfl⟩
  · intro p below
    simp only [outside, false_and, exists_false, iff_false]
    omega
  · intro p below
    simp only [outside, false_and, exists_false, iff_false]
    omega

theorem prefix_snoc {α : Type} {part whole : List α} {a : α} (within : part <+: whole)
    (next : whole[part.length]? = some a) : part ++ [a] <+: whole := by
  obtain ⟨rest, rfl⟩ := within
  cases rest with
  | nil => simp at next
  | cons b rest =>
    have same : b = a := by simpa using next
    exact ⟨rest, by simp [same]⟩

/-- An operation that is no leader goes to the block before it. -/
theorem extend (layout : Layout ops k s) (next : ops[k]? = some o) (inner : k ∉ s.leaders)
    (found : s.graph.blocks[b]? = some block) (stop : block.stop = k)
    (blocks : ∀ i : BlockId, graph.blocks[i]? =
      if i = b then some { block with ops := block.ops ++ [o] } else s.graph.blocks[i]?) :
    Layout ops (k + 1) { s with graph, blockOf := s.blockOf.setIfInBounds k (some b) } := by
  obtain ⟨nonempty, within, bound, used⟩ := layout.segment b block found
  have positive := List.length_pos_iff.mpr nonempty
  have length : block.pc + block.ops.length = k := stop
  refine layout.grow next.lt_length blocks ⟨by simp, ?_, used, layout.raw b block found⟩ ?_ ?_ ?_ ?_
  · exact prefix_snoc within (by rw [List.getElem?_drop, length, next])
  · simp only [Block.stop, List.length_append, List.length_singleton]
    omega
  · intro p below
    simp only [found, Option.some.injEq, exists_eq_left']
    omega
  · intro p below
    simp [found]
  · simp only [inner, false_iff]
    omega

/-- The two parts of a block that is cut inside. -/
theorem parts (layout : Layout ops k s) (consecutive : Consecutive 0 ops) {whole : Block}
    (found : s.graph.blocks[b]? = some whole) (after : whole.pc < pc) (before : pc < whole.stop) :
    (s.graph.frontPart whole pc).ops = whole.ops.take (pc - whole.pc) ∧
      (s.graph.frontPart whole pc).stop = pc ∧
      (s.graph.rearPart whole pc).ops = whole.ops.drop (pc - whole.pc) ∧
      (s.graph.rearPart whole pc).stop = whole.stop := by
  have own := consecutive.of_part (layout.segment b whole found).2.1
  have front : (s.graph.frontPart whole pc).ops = whole.ops.take (pc - whole.pc) := own.takeWhile_eq pc
  have rear : (s.graph.rearPart whole pc).ops = whole.ops.drop (pc - whole.pc) := own.dropWhile_eq pc
  unfold Block.stop at before ⊢
  refine ⟨front, ?_, rear, ?_⟩
  · rw [front, List.length_take]
    change whole.pc + _ = pc
    omega
  · rw [rear, List.length_drop]
    change pc + _ = _
    omega

/-- Parting a block keeps the order of operations, and its first part is owned by the new block. -/
theorem parted (layout : Layout ops k s) (consecutive : Consecutive 0 ops) {whole : Block} {owners : Array (Option BlockId)}
    (found : s.graph.blocks[b]? = some whole) (after : whole.pc < pc) (before : pc < whole.stop)
    (size : owners.size = s.blockOf.size)
    (owned : ∀ p : Nat, owners[p]? =
      if whole.pc ≤ p ∧ p < pc then some (some s.graph.blocks.size) else s.blockOf[p]?) :
    Layout ops k { s with leaders := pc :: s.leaders, graph := s.graph.parted b whole pc, blockOf := owners } := by
  obtain ⟨nonempty, within, bound, used⟩ := layout.segment b whole found
  obtain ⟨frontOps, frontStop, rearOps, rearStop⟩ := layout.parts consecutive found after before
  have atFront := Graph.parted_front pc found
  have atRear := Graph.parted_rear pc found
  constructor
  case scanned => exact layout.scanned
  case owners => exact size.trans layout.owners
  case segment =>
    intro i block atIndex
    rcases Graph.parted_cases found atIndex with ⟨rfl, rfl⟩ | ⟨rfl, rfl⟩ | ⟨_, old⟩
    · refine ⟨?_, ?_, by omega, rfl⟩
      · rw [frontOps]
        simp only [ne_eq, List.take_eq_nil_iff, not_or]
        exact ⟨by omega, nonempty⟩
      · rw [frontOps]
        exact (List.take_prefix _ _).trans within
    · refine ⟨?_, ?_, by omega, used⟩
      · rw [rearOps]
        simp only [ne_eq, List.drop_eq_nil_iff]
        unfold Block.stop at before
        omega
      · rw [rearOps]
        change _ <+: ops.drop pc
        have later := within.drop (pc - whole.pc)
        rwa [List.drop_drop, show whole.pc + (pc - whole.pc) = pc by omega] at later
    · exact layout.segment i block old
  case owner =>
    intro p i
    simp only [owned]
    by_cases range : whole.pc ≤ p ∧ p < pc
    · rw [if_pos range]
      constructor
      · intro same
        simp only [Option.some.injEq] at same
        subst same
        exact ⟨_, atFront, range.1, by omega⟩
      · rintro ⟨block, atIndex, lower, upper⟩
        rcases Graph.parted_cases found atIndex with ⟨rfl, rfl⟩ | ⟨rfl, rfl⟩ | ⟨notRear, old⟩
        · rfl
        · change pc ≤ p at lower
          omega
        · have mine := (layout.owner p i).mpr ⟨block, old, lower, upper⟩
          rw [(layout.owner p b).mpr ⟨whole, found, range.1, by omega⟩] at mine
          simp only [Option.some.injEq] at mine
          exact absurd mine.symm notRear
    · rw [if_neg range, layout.owner]
      constructor
      · rintro ⟨block, atIndex, lower, upper⟩
        by_cases rear : i = b
        · subst rear
          cases found.some_unique atIndex
          exact ⟨_, atRear, by change pc ≤ p; omega, by omega⟩
        · exact ⟨block, Graph.parted_other pc found atIndex rear, lower, upper⟩
      · rintro ⟨block, atIndex, lower, upper⟩
        rcases Graph.parted_cases found atIndex with ⟨rfl, rfl⟩ | ⟨rfl, rfl⟩ | ⟨_, old⟩
        · change whole.pc ≤ p at lower
          exact absurd ⟨lower, by omega⟩ range
        · change pc ≤ p at lower
          exact ⟨whole, found, by omega, by omega⟩
        · exact ⟨block, old, lower, upper⟩
  case covered =>
    intro p inside
    simp only [owned]
    split
    · exact ⟨_, rfl⟩
    · exact layout.covered p inside
  case starts =>
    intro p inside
    simp only [List.mem_cons, layout.starts p inside]
    constructor
    · rintro (rfl | ⟨i, block, atIndex, rfl⟩)
      · exact ⟨b, _, atRear, rfl⟩
      · by_cases rear : i = b
        · subst rear
          cases found.some_unique atIndex
          exact ⟨_, _, atFront, rfl⟩
        · exact ⟨i, block, Graph.parted_other pc found atIndex rear, rfl⟩
    · rintro ⟨i, block, atIndex, rfl⟩
      rcases Graph.parted_cases found atIndex with ⟨rfl, rfl⟩ | ⟨rfl, rfl⟩ | ⟨_, old⟩
      · exact .inr ⟨b, whole, found, rfl⟩
      · exact .inl rfl
      · exact .inr ⟨i, block, old, rfl⟩
  case raw =>
    intro i block atIndex
    rcases Graph.parted_cases found atIndex with ⟨rfl, rfl⟩ | ⟨rfl, rfl⟩ | ⟨_, old⟩
    · exact ⟨rfl, rfl, rfl⟩
    · exact layout.raw i whole found
    · exact layout.raw i block old

/-- A jump back into a block parts it there. -/
theorem splitAt (layout : Layout ops k s) (consecutive : Consecutive 0 ops) (wired : s.graph.Wired) (inside : pc < k)
    (inner : pc ∉ s.leaders) :
    ∃ b whole owners, s.graph.blocks[b]? = some whole ∧ whole.pc < pc ∧ pc < whole.stop ∧
      (s.addLeader pc).splitAt pc =
        .ok { s with leaders := pc :: s.leaders, graph := s.graph.parted b whole pc, blockOf := owners } ∧
      Layout ops k { s with leaders := pc :: s.leaders, graph := s.graph.parted b whole pc, blockOf := owners } := by
  obtain ⟨b, owns⟩ := layout.covered pc inside
  obtain ⟨whole, found, lower, upper⟩ := (layout.owner pc b).mp owns
  have notStart : whole.pc ≠ pc := fun same => inner ((layout.starts pc inside).mpr ⟨b, whole, found, same⟩)
  have after : whole.pc < pc := by omega
  obtain ⟨nonempty, within, bound, used⟩ := layout.segment b whole found
  obtain ⟨frontOps, frontStop, rearOps, rearStop⟩ := layout.parts consecutive found after upper
  have frontConsecutive : Consecutive whole.pc (s.graph.frontPart whole pc).ops := by
    rw [frontOps]
    exact consecutive.of_part ((List.take_prefix _ _).trans within)
  have frontMem (p : Nat) : (∃ o ∈ (s.graph.frontPart whole pc).ops, o.pc = p) ↔ whole.pc ≤ p ∧ p < pc := by
    have within := frontConsecutive.exists_mem_iff p
    change _ ↔ whole.pc ≤ p ∧ p < (s.graph.frontPart whole pc).stop at within
    rwa [frontStop] at within
  have atFront := Graph.parted_front pc found
  obtain ⟨owners, run, size, owned⟩ := setOwners_eq s.graph.blocks.size (s.graph.frontPart whole pc).ops s.blockOf (by
    intro o member
    have := (frontMem o.pc).mp ⟨o, member, rfl⟩
    have := layout.owners
    have := layout.scanned
    omega)
  simp only [frontMem] at owned
  refine ⟨b, whole, owners, found, after, upper, ?_, ?_⟩
  · simp only [addLeader, List.contains_eq_mem, inner, decide_false, Bool.false_eq_true, if_false, Scan.splitAt, owns,
      Graph.block_eq_ok.mpr found, ok_bind, notStart, Graph.splitPred_eq pc found (wired.ins_lt found),
      Graph.block_eq_ok.mpr atFront, run]
    rfl
  · exact layout.parted consecutive found after upper size owned

end Layout

end Scan

end Unstack
