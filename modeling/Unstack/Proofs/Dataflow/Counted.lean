import Unstack.Proofs.Dataflow.Invariant

namespace Unstack

variable {g : Graph} {ops : List Operation}

/-- The operation with the last form that is given for its index. -/
def Operation.given (forms : List (Nat × Instr)) (o : Operation) : Operation :=
  forms.foldl (fun o form => if o.pc = form.1 then { o with instr := form.2 } else o) o

namespace Operation

theorem given_nil (o : Operation) : o.given [] = o := rfl

theorem given_cons (form : Nat × Instr) (rest : List (Nat × Instr)) (o : Operation) :
    o.given (form :: rest) = (if o.pc = form.1 then { o with instr := form.2 } else o).given rest := rfl

theorem given_pc (forms : List (Nat × Instr)) (o : Operation) : (o.given forms).pc = o.pc := by
  induction forms generalizing o with
  | nil => rfl
  | cons form rest ih =>
    rw [given_cons, ih]
    split <;> rfl

theorem given_eq (forms : List (Nat × Instr)) (o : Operation) :
    o.given forms = o ∨ ∃ form ∈ forms, form.1 = o.pc ∧ o.given forms = { o with instr := form.2 } := by
  induction forms generalizing o with
  | nil => exact .inl rfl
  | cons form rest ih =>
    rw [given_cons]
    split
    · rename_i here
      rcases ih { o with instr := form.2 } with same | ⟨later, member, atPc, same⟩
      · exact .inr ⟨form, .head _, here.symm, same⟩
      · exact .inr ⟨later, .tail _ member, atPc, same⟩
    · rcases ih o with same | ⟨later, member, atPc, same⟩
      · exact .inl same
      · exact .inr ⟨later, .tail _ member, atPc, same⟩

end Operation

/-- Each number stands once, so replacing by number is a map. -/
theorem replaceInstr_eq {first : Nat} (consecutive : Consecutive first ops) (pc : Nat) (instr : Instr) :
    replaceInstr pc instr ops = ops.map (Operation.given [(pc, instr)]) := by
  induction ops generalizing first with
  | nil => rfl
  | cons o rest ih =>
    rw [replaceInstr, List.map_cons]
    by_cases here : o.pc = pc
    · have others : rest.map (Operation.given [(pc, instr)]) = rest.map id := by
        refine List.map_congr_left fun other member => ?_
        obtain ⟨i, found⟩ := List.mem_iff_getElem?.mp member
        have later := consecutive.tail i other found
        have atFirst := consecutive 0 o rfl
        exact if_neg (show ¬ other.pc = pc by omega)
      rw [if_pos here, others, List.map_id]
      exact congrArg (· :: rest) (if_pos here).symm
    · rw [if_neg here, ih consecutive.tail]
      exact congrArg (· :: rest.map _) (if_neg here).symm

namespace Graph

def given (forms : List (Nat × Instr)) (g : Graph) : Graph :=
  { g with
    ops := g.ops.map (Operation.given forms)
    blocks := g.blocks.map fun block => { block with ops := block.ops.map (Operation.given forms) } }

theorem given_block {forms : List (Nat × Instr)} {b : BlockId} {block' : Block} :
    (g.given forms).blocks[b]? = some block' ↔
      ∃ block, g.blocks[b]? = some block ∧ { block with ops := block.ops.map (Operation.given forms) } = block' := by
  unfold given
  rw [Array.getElem?_map, Option.map_eq_some_iff]

/-- Operations are numbered, in the method and in every block. -/
structure Numbered (g : Graph) : Prop where
  ops : Consecutive 0 g.ops.toList
  blocks (b : BlockId) (block : Block) : g.blocks[b]? = some block →
    block.removed = false ∧ Consecutive block.pc block.ops

end Graph

theorem Consecutive.given {first : Nat} (consecutive : Consecutive first ops) (forms : List (Nat × Instr)) :
    Consecutive first (ops.map (Operation.given forms)) := by
  intro i o found
  rw [List.getElem?_map] at found
  obtain ⟨old, atIndex, rfl⟩ := Option.map_eq_some_iff.mp found
  rw [Operation.given_pc]
  exact consecutive i old atIndex

namespace Graph

theorem Numbered.given (numbered : g.Numbered) (forms : List (Nat × Instr)) : (g.given forms).Numbered where
  ops := by
    unfold Graph.given
    rw [Array.toList_map]
    exact numbered.ops.given forms
  blocks b block' found := by
    obtain ⟨block, atIndex, rfl⟩ := given_block.mp found
    have before := numbered.blocks b block atIndex
    exact ⟨before.1, before.2.given forms⟩

theorem replaceOperation_eq (numbered : g.Numbered) (pc : Nat) (instr : Instr) :
    g.replaceOperation pc instr = g.given [(pc, instr)] := by
  have ops : g.ops.modify pc ({ · with instr }) = g.ops.map (Operation.given [(pc, instr)]) := by
    apply Array.ext_getElem?
    intro i
    rw [Array.getElem?_modify, Array.getElem?_map]
    cases found : g.ops[i]? with
    | none => split <;> rfl
    | some o =>
      have atPc := numbered.ops i o (by rwa [Array.getElem?_toList])
      rw [Nat.zero_add] at atPc
      by_cases here : pc = i
      · simp [Operation.given_cons, Operation.given_nil, here, atPc]
      · simp [Operation.given_cons, Operation.given_nil, here, atPc, Ne.symm here]
  have blocks : g.blocks.map (fun block => if block.removed then block else
      { block with ops := replaceInstr pc instr block.ops }) =
      g.blocks.map fun block => { block with ops := block.ops.map (Operation.given [(pc, instr)]) } := by
    apply Array.ext_getElem?
    intro b
    rw [Array.getElem?_map, Array.getElem?_map]
    cases found : g.blocks[b]? with
    | none => rfl
    | some block =>
      obtain ⟨used, consecutive⟩ := numbered.blocks b block found
      simp only [Option.map_some, used, Bool.false_eq_true, if_false, replaceInstr_eq consecutive]
  unfold replaceOperation given
  rw [ops, blocks]

/-- Replacing one operation after the other is replacing them all. -/
theorem replaceAll_eq (numbered : g.Numbered) (forms : List (Nat × Instr)) :
    forms.foldl (fun g (pc, instr) => g.replaceOperation pc instr) g = g.given forms := by
  induction forms generalizing g with
  | nil =>
    have same : Operation.given [] = id := rfl
    simp [given, same]
  | cons form rest ih =>
    change rest.foldl _ (g.replaceOperation form.1 form.2) = _
    rw [replaceOperation_eq numbered, ih (numbered.given _)]
    simp only [given, Array.map_map, List.map_map, Function.comp_def]
    rfl

theorem Laid.toNumbered {m : MethodInput} (laid : g.Laid m) : g.Numbered where
  ops := by
    rw [laid.ops, List.toList_toArray]
    exact .numbered m
  blocks b block found := by
    obtain ⟨_, within, used⟩ := laid.segment b block found
    exact ⟨used, (Consecutive.numbered m).of_part within⟩

theorem mem_slotForms {form : Nat × Instr} (member : form ∈ g.slotForms) :
    ∃ o f, g.ops[form.1]? = some o ∧ g.Holds form.1 f ∧ o.instr.onValues? f = some form.2 := by
  obtain ⟨⟨⟨o, frame⟩, pc⟩, listed, chosen⟩ := List.mem_filterMap.mp member
  have atIndex := List.mem_zipIdx_iff_getElem?.mp listed
  obtain ⟨atOps, atFrames⟩ := List.getElem?_zip_eq_some.mp atIndex
  simp only [Option.bind_eq_bind, Option.bind_eq_some_iff] at chosen
  obtain ⟨f, known, instr, other, same⟩ := chosen
  cases same
  subst known
  exact ⟨o, f, by simpa using atOps, by simpa [Holds] using atFrames, other⟩

/-- The operation as the analysis leaves it. -/
def counted (g : Graph) (o : Operation) : Operation := o.given g.slotForms

section Counted

variable {g : Graph} {o : Operation}

theorem counted_pc : (g.counted o).pc = o.pc := o.given_pc _

theorem counted_eq (listed : g.ops[o.pc]? = some o) :
    g.counted o = o ∨
      ∃ f form, g.Holds o.pc f ∧ o.instr.onValues? f = some form ∧ g.counted o = { o with instr := form } := by
  rcases o.given_eq g.slotForms with same | ⟨form, member, atPc, same⟩
  · exact .inl same
  · obtain ⟨o', f, found, holds, other⟩ := mem_slotForms member
    rw [atPc] at found holds
    cases listed.symm.trans found
    exact .inr ⟨f, form.2, holds, other, same⟩

/-- The form that counts values does what the one that counts slots does. -/
theorem execute_counted (listed : g.ops[o.pc]? = some o) {f : Frame} (holds : g.Holds o.pc f) :
    f.execute (g.counted o).pc (g.counted o).instr = f.execute o.pc o.instr := by
  rw [counted_pc]
  rcases counted_eq listed with same | ⟨f', form, holds', other, same⟩
  · rw [same]
  · cases holds.symm.trans holds'
    rw [same]
    exact Instr.execute_onValues other o.pc

/-- Only forms of `dup` and `pop` are replaced. -/
theorem instr_of_counted (listed : g.ops[o.pc]? = some o) {instr : Instr} (same : (g.counted o).instr = instr)
    (noDup : ∀ form, instr ≠ .dup form) (noPop : ∀ form, instr ≠ .pop form) : o.instr = instr := by
  rcases counted_eq listed with kept | ⟨f, form, _, other, kept⟩
  · rwa [kept] at same
  · rw [kept] at same
    unfold Instr.onValues? at other
    split at other
    · split at other <;> cases other
      exact absurd same.symm (noDup _)
    · split at other <;> cases other
      exact absurd same.symm (noPop _)
    · cases other

end Counted

end Graph

end Unstack
