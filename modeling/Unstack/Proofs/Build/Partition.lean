import Unstack.Proofs.Build.Result

namespace Unstack

/-- An operation starts a block if it is the first, if a jump leads to it, if an exception range starts or ends
there or has its handler there, or if it comes after an operation that ends a block. -/
def MethodInput.Leader (m : MethodInput) (pc : Nat) : Prop :=
  pc = 0 ∨ (∃ o ∈ m.ops, pc ∈ o.instr.targets) ∨
    (∃ r ∈ m.exceptions, pc = r.startPc ∨ pc = r.handlerPc ∨ (pc = r.endPc ∧ pc < m.ops.length)) ∨
    ∃ o ∈ m.numbered, o.instr.endsBlock ∧ pc = o.pc + 1 ∧ pc < m.ops.length

instance (m : MethodInput) (pc : Nat) : Decidable (m.Leader pc) := instDecidableOr

theorem MethodInput.announced_iff_leader (m : MethodInput) (pc : Nat) :
    Scan.Announced m.knownLeaders m.numbered m.ops.length pc ↔ m.Leader pc := by
  have known : pc ∈ m.knownLeaders ↔ pc = 0 ∨
      ∃ r ∈ m.exceptions, pc = r.startPc ∨ pc = r.handlerPc ∨ (pc = r.endPc ∧ pc < m.ops.length) := by
    simp only [knownLeaders, List.mem_cons, List.mem_flatMap, List.mem_append, List.not_mem_nil, or_false, or_assoc]
    refine or_congr_right (exists_congr fun r => and_congr_right fun _ => or_congr_right (or_congr_right ?_))
    split
    · rename_i inside
      simp only [List.mem_singleton]
      exact ⟨fun same => ⟨same, same ▸ inside⟩, And.left⟩
    · rename_i outside
      simp only [List.not_mem_nil, false_iff, not_and]
      rintro rfl
      exact outside
  unfold Scan.Announced Leader
  rw [known, numbered_length]
  constructor
  · rintro ((first | border) | ⟨q, o, _, found, jumps | ⟨ends, after, inside⟩⟩)
    · exact .inl first
    · exact .inr (.inr (.inl border))
    · obtain ⟨o', found', rfl⟩ := numbered_eq_some.mp found
      exact .inr (.inl ⟨o', List.mem_of_getElem? found', jumps⟩)
    · have atPc : o.pc = 0 + q := Consecutive.numbered m q o found
      exact .inr (.inr (.inr ⟨o, List.mem_of_getElem? found, ends, by omega, inside⟩))
  · rintro (first | ⟨o, member, jumps⟩ | border | ⟨o, member, ends, after, inside⟩)
    · exact .inl (.inl first)
    · obtain ⟨q, found⟩ := List.mem_iff_getElem?.mp member
      have bound := found.lt_length
      exact .inr ⟨q, { o with pc := q }, bound, numbered_eq_some.mpr ⟨o, found, rfl⟩, .inl jumps⟩
    · exact .inl (.inr border)
    · obtain ⟨q, found⟩ := List.mem_iff_getElem?.mp member
      have atPc : o.pc = 0 + q := Consecutive.numbered m q o found
      exact .inr ⟨q, o, by omega, found, .inr ⟨ends, by omega, inside⟩⟩

namespace Graph

/-- The blocks that are in use, by their first operation. -/
def inOrder (g : Graph) : List Block := (g.live.map Prod.snd).mergeSort fun a b => a.pc ≤ b.pc

/-- No operation is in both blocks. -/
def Disjoint (a b : Block) : Prop := ∀ p, ¬ (a.pc ≤ p ∧ p < a.stop ∧ b.pc ≤ p ∧ p < b.stop)

theorem Disjoint.symm {a b : Block} (disjoint : Disjoint a b) : Disjoint b a :=
  fun p ⟨lower, upper, lower', upper'⟩ => disjoint p ⟨lower', upper', lower, upper⟩

/-- Parts of the method that do not overlap and leave nothing out, put together in order. -/
theorem flatMap_ops_eq {ops : List Operation} {blocks : List Block} {first : Nat}
    (sorted : blocks.Pairwise fun a b => a.pc ≤ b.pc) (disjoint : blocks.Pairwise Disjoint)
    (part : ∀ block ∈ blocks, first ≤ block.pc ∧ block.ops ≠ [] ∧ block.ops <+: ops.drop block.pc)
    (covered : ∀ p, first ≤ p → p < ops.length → ∃ block ∈ blocks, block.pc ≤ p ∧ p < block.stop) :
    blocks.flatMap Block.ops = ops.drop first := by
  induction blocks generalizing first with
  | nil =>
    rw [List.flatMap_nil, eq_comm, List.drop_eq_nil_iff]
    by_contra inside
    obtain ⟨_, member, _⟩ := covered first (Nat.le_refl _) (by omega)
    cases member
  | cons block rest ih =>
    obtain ⟨lower, nonempty, rest', within⟩ := part block (.head _)
    have positive := List.length_pos_iff.mpr nonempty
    have inside : block.pc < ops.length := by
      have length := congrArg List.length within
      simp only [List.length_append, List.length_drop] at length
      omega
    have atFirst : block.pc = first := by
      obtain ⟨other, member, atMost, _⟩ := covered first (Nat.le_refl _) (by omega)
      rcases List.mem_cons.mp member with rfl | member
      · omega
      · have := List.rel_of_pairwise_cons sorted member
        omega
    have tail : ops.drop block.stop = rest' := by
      rw [Block.stop, ← List.drop_drop, ← within, List.drop_left]
    rw [List.flatMap_cons, @ih block.stop sorted.of_cons disjoint.of_cons, tail, within, atFirst]
    · intro other member
      have later := List.rel_of_pairwise_cons sorted member
      have apart := List.rel_of_pairwise_cons disjoint member other.pc
      obtain ⟨_, nonempty', within'⟩ := part other (.tail _ member)
      have positive' := List.length_pos_iff.mpr nonempty'
      refine ⟨?_, nonempty', within'⟩
      unfold Block.stop at apart ⊢
      omega
    · intro p after below
      obtain ⟨other, member, lower', upper'⟩ := covered p (by unfold Block.stop at after; omega) below
      rcases List.mem_cons.mp member with rfl | member
      · omega
      · exact ⟨other, member, lower', upper'⟩

theorem live_pairwise (g : Graph) : g.live.Pairwise fun x y => x.1 ≠ y.1 := by
  have indexed : g.blocks.toList.zipIdx.Pairwise fun x y => x.2 ≠ y.2 := by
    apply List.pairwise_map.mp
    rw [List.zipIdx_map_snd]
    exact List.nodup_range'
  refine indexed.filterMap _ fun x y different a atX b atY => ?_
  have name {x : Block × Nat} {a : BlockId × Block}
      (chosen : a ∈ if x.1.removed then none else some (x.2, x.1)) : a.1 = x.2 := by
    split at chosen
    · cases chosen
    · rw [← Option.some.inj chosen]
  rw [name atX, name atY]
  exact different

namespace Laid

variable {m : MethodInput} {g : Graph} {block : Block} {b : BlockId} {o : Operation}

theorem mem_live (laid : g.Laid m) : (b, block) ∈ g.live ↔ g.blocks[b]? = some block :=
  Graph.mem_live.trans ⟨And.left, fun found => ⟨found, (laid.segment b block found).2.2⟩⟩

/-- No operation is in two blocks. -/
theorem disjoint (laid : g.Laid m) : (g.live.map Prod.snd).Pairwise Disjoint := by
  rw [List.pairwise_map]
  refine g.live_pairwise.imp_of_mem ?_
  rintro ⟨b, block⟩ ⟨c, other⟩ member member' different p ⟨lower, upper, lower', upper'⟩
  exact different (laid.apart b c block other p (laid.mem_live.mp member) (laid.mem_live.mp member')
    lower upper lower' upper')

theorem mem_inOrder (laid : g.Laid m) : block ∈ g.inOrder ↔ ∃ b : BlockId, g.blocks[b]? = some block := by
  simp only [inOrder, List.mem_mergeSort, List.mem_map, Prod.exists, exists_eq_right, laid.mem_live]

/-- The blocks in order give the operations of the method, each once. -/
theorem flatMap_inOrder (laid : g.Laid m) : g.inOrder.flatMap Block.ops = m.numbered := by
  have perm : g.inOrder.Perm (g.live.map Prod.snd) := List.mergeSort_perm ..
  rw [← List.drop_zero (l := m.numbered)]
  refine flatMap_ops_eq ?sorted ?disjoint ?part ?covered
  case sorted =>
    have sorted : g.inOrder.Pairwise fun a b => decide (a.pc ≤ b.pc) = true :=
      List.pairwise_mergeSort (fun a b c => by simpa using Nat.le_trans)
        (fun a b => by simpa using Nat.le_total a.pc b.pc) _
    exact sorted.imp fun order => by simpa using order
  case disjoint => exact (perm.pairwise_iff Disjoint.symm).mpr laid.disjoint
  case part =>
    intro block inside
    obtain ⟨b, found⟩ := laid.mem_inOrder.mp inside
    obtain ⟨nonempty, within, _⟩ := laid.segment b block found
    exact ⟨Nat.zero_le _, nonempty, within⟩
  case covered =>
    intro p _ below
    obtain ⟨b, block, found, lower, upper⟩ := laid.covered p (m.numbered_length ▸ below)
    exact ⟨block, laid.mem_inOrder.mpr ⟨b, found⟩, lower, upper⟩

theorem op_pc (laid : g.Laid m) (found : g.blocks[b]? = some block) {i : Nat}
    (atIndex : block.ops[i]? = some o) : o.pc = block.pc + i :=
  (Consecutive.numbered m).of_part (laid.segment b block found).2.1 i o atIndex

/-- Each operation of a block is the one of the method at its place. -/
theorem op_numbered (laid : g.Laid m) (found : g.blocks[b]? = some block) {i : Nat}
    (atIndex : block.ops[i]? = some o) : m.numbered[block.pc + i]? = some o := by
  obtain ⟨_, ⟨rest, within⟩, _⟩ := laid.segment b block found
  rw [← List.getElem?_drop, ← within, List.getElem?_append_left atIndex.lt_length, atIndex]

/-- Inside a block no operation ends it: a block would start behind such an operation. -/
theorem flows_inside (laid : g.Laid m) (found : g.blocks[b]? = some block)
    (inner : o ∈ block.ops.dropLast) : o.instr.endsBlock = false := by
  by_contra ends
  obtain ⟨i, inside, rfl⟩ := List.mem_iff_getElem.mp inner
  rw [List.length_dropLast] at inside
  have atIndex := List.getElem?_eq_getElem (show i < block.ops.length by omega)
  rw [List.getElem_dropLast] at ends
  have pc := laid.op_pc found atIndex
  have atPc := laid.op_numbered found atIndex
  obtain ⟨_, ⟨rest, within⟩, _⟩ := laid.segment b block found
  have bound : block.pc + i + 1 < m.ops.length := by
    have length := congrArg List.length within
    simp only [List.length_append, List.length_drop, m.numbered_length] at length
    omega
  obtain ⟨c, other, found', start⟩ := (laid.starts (block.pc + i + 1)).mpr
    (.inr ⟨_, _, by omega, atPc, .inr ⟨by simpa using ends, rfl, m.numbered_length ▸ bound⟩⟩)
  have positive := List.length_pos_iff.mpr (laid.segment c other found').1
  have same := laid.apart b c block other (block.pc + i + 1) found found' (by omega)
    (by unfold Block.stop; omega) (by omega) (by unfold Block.stop; omega)
  subst same
  cases found.some_unique found'
  omega

theorem blockAt (laid : g.Laid m) (found : g.blocks[b]? = some block) : g.blockAt? block.pc = some b := by
  have starts {c : BlockId} {other : Block} (found : g.blocks[c]? = some other) : other.pc < other.stop := by
    have positive := List.length_pos_iff.mpr (laid.segment c other found).1
    unfold Block.stop
    omega
  cases first : g.blockAt? block.pc with
  | none =>
    have none := List.find?_eq_none.mp (Option.map_eq_none_iff.mp first) (b, block) (laid.mem_live.mpr found)
    simp at none
  | some c =>
    obtain ⟨⟨c, other⟩, chosen, rfl⟩ := Option.map_eq_some_iff.mp first
    have atStart : other.pc = block.pc := by simpa using List.find?_some chosen
    have found' := laid.mem_live.mp (List.mem_of_find?_eq_some chosen)
    have same := laid.apart b c block other block.pc found found' (Nat.le_refl _) (starts found) (by omega)
      (atStart ▸ starts found')
    rw [same]

end Laid

/-- The blocks of a method are those that its leaders cut it into. In order they hold the operations of the
method, each begins with the operation it is named for and is left at its last operation only, and blocks
start exactly at the leaders. -/
theorem inOrder_partitions {m : MethodInput} {g : Graph} (run : (Graph.ofMethod m).run = .ok (.ok g)) :
    g.inOrder.flatMap Block.ops = m.ops.zipIdx.map (fun (o, pc) => { o with pc }) ∧
      (∀ block ∈ g.inOrder, block.ops ≠ [] ∧ block.ops.head?.map Operation.pc = some block.pc ∧
        ∀ o ∈ block.ops.dropLast, o.instr.endsBlock = false) ∧
      ∀ pc, (∃ block ∈ g.inOrder, block.pc = pc) ↔ m.Leader pc := by
  have built := (ofMethod_yields m).of_run run
  refine ⟨built.flatMap_inOrder, fun block member => ?_, fun pc => ?_⟩
  · obtain ⟨b, found⟩ := built.mem_inOrder.mp member
    have nonempty := (built.segment b block found).1
    refine ⟨nonempty, ?_, fun o inner => built.flows_inside found inner⟩
    obtain ⟨o, rest, whole⟩ := List.exists_cons_of_ne_nil nonempty
    have pc := built.op_pc found (show block.ops[0]? = some o by rw [whole]; rfl)
    simp [whole, pc]
  · rw [← m.announced_iff_leader, ← built.starts]
    simp only [built.mem_inOrder]
    exact ⟨fun ⟨block, ⟨b, found⟩, start⟩ => ⟨b, block, found, start⟩,
      fun ⟨b, block, found, start⟩ => ⟨block, ⟨b, found⟩, start⟩⟩

/-- Counts a register down. The jump at the end goes back into its own block, the loop is left ahead, and a part of
it is covered by a handler. -/
def countdown : MethodInput where
  info := MethodInfo.plain "countdown" 1 1
  ops := [⟨0, 0, -1, .push .int (.int 3)⟩, ⟨0, 0, -1, .store .int 0⟩, ⟨0, 0, -1, .load .int 0⟩,
    ⟨0, 0, -1, .jumpZero .int .eq 7⟩, ⟨0, 0, -1, .inc .int 0 (-1)⟩, ⟨0, 0, -1, .load .int 0⟩,
    ⟨0, 0, -1, .jumpZero .int .ne 5⟩, ⟨0, 0, -1, .goto 2⟩]
  exceptions := [⟨4, 7, 7, none⟩]

theorem inOrder_partitions_countdown : ∃ g, (Graph.ofMethod countdown).run = .ok (.ok g) ∧
    g.inOrder.flatMap Block.ops = countdown.ops.zipIdx.map (fun (o, pc) => { o with pc }) ∧
      (∀ block ∈ g.inOrder, block.ops ≠ [] ∧ block.ops.head?.map Operation.pc = some block.pc ∧
        ∀ o ∈ block.ops.dropLast, o.instr.endsBlock = false) ∧
      ∀ pc, (∃ block ∈ g.inOrder, block.pc = pc) ↔ countdown.Leader pc := by
  obtain ⟨g, run⟩ := Building.run_of_result (show (Graph.ofMethod countdown).result?.isSome by decide +kernel)
  exact ⟨g, run, inOrder_partitions run⟩

example : (List.range 9).filter (fun pc => countdown.Leader pc) = [0, 2, 4, 5, 7] := by decide

end Graph

end Unstack
