import Unstack.Proofs.Frame.Merge

namespace Unstack

variable {pc slot : Nat}

/-- How often a type can change at most while it is joined with others. -/
def JavaType.slack : JavaType → Nat
  | unknown => 0
  | null => 3
  | t => if t = anyObject ∨ t = int then 1 else if t.isReference ∨ t.isIntLike then 2 else 1

namespace JavaType

variable {a : JavaType}

theorem slack_pos (known : a ≠ unknown) : 0 < a.slack := by
  unfold slack
  split
  · exact absurd rfl known
  · decide
  · split_ifs <;> decide

theorem slack_le_two (other : a ≠ null) : a.slack ≤ 2 := by
  unfold slack
  split
  · decide
  · exact absurd rfl other
  · split_ifs <;> decide

theorem two_le_slack (kind : a.isReference ∨ a.isIntLike) (notAny : a ≠ anyObject) (notInt : a ≠ int) :
    2 ≤ a.slack := by
  unfold slack
  split
  · simp [isReference, isIntLike] at kind
  · decide
  · rw [if_neg (not_or.mpr ⟨notAny, notInt⟩), if_pos kind]

/-- A type that is changed by a join has fewer changes left. -/
theorem slack_join {b : JavaType} (changed : a.join b ≠ a) : (a.join b).slack < a.slack := by
  rcases join_cases a b with up | ⟨same, _⟩ | ⟨up, rfl, reference⟩ | ⟨up, reference, _⟩ | ⟨up, intLike, _⟩
  · rw [up] at changed ⊢
    exact slack_pos changed.symm
  · exact absurd same changed
  · rw [up] at changed ⊢
    exact Nat.lt_succ_of_le (slack_le_two changed)
  · rw [up] at changed ⊢
    exact two_le_slack (.inl reference) changed.symm fun same => by simp [same, isReference] at reference
  · rw [up] at changed ⊢
    exact two_le_slack (.inr intLike) (fun same => by simp [same, isIntLike, anyObject] at intLike) changed.symm

end JavaType

/-- How often the value of a slot before the operation at `pc` can change: once to be defined there, and then
with its type. -/
def SymValue.slack (pc slot : Nat) (v : SymValue) : Nat :=
  v.type.slack + if v.pc = pc ∧ v.slot = slot ∧ v.origin = .merged then 0 else 1

theorem SymValue.slack_merge {a x : SymValue} (changed : merge pc slot a x ≠ a) :
    (merge pc slot a x).slack pc slot < a.slack pc slot := by
  have differ : a ≠ x := fun same => changed (same ▸ merge_self pc slot a)
  have joined : merge pc slot a x = ⟨pc, slot, a.type.join x.type, .merged⟩ := if_neg differ
  rw [joined] at changed ⊢
  simp only [slack, and_self, if_true, Nat.add_zero]
  by_cases same : a.type.join x.type = a.type
  · -- the type stays, so the value was not defined here before
    have elsewhere : ¬ (a.pc = pc ∧ a.slot = slot ∧ a.origin = .merged) := by
      rintro ⟨rfl, rfl, merged⟩
      rw [same, ← merged] at changed
      exact changed rfl
    rw [if_neg elsewhere, same]
    omega
  · have raised := JavaType.slack_join same
    omega

/-- How often a register can change: also once more to become undefined. -/
def Frame.regSlack (pc slot : Nat) : Option SymValue → Nat
  | none => 0
  | some v => v.slack pc slot + 1

namespace Frame

def mergeReg (pc slot : Nat) : Option SymValue → Option SymValue → Option SymValue
  | some a, some b => some (a.merge pc slot b)
  | _, _ => none

theorem mergeReg_self (pc slot : Nat) (a : Option SymValue) : mergeReg pc slot a a = a := by
  cases a with
  | none => rfl
  | some a => exact congrArg some (SymValue.merge_self pc slot a)

theorem regSlack_merge {a x : Option SymValue} (changed : mergeReg pc slot a x ≠ a) :
    regSlack pc slot (mergeReg pc slot a x) < regSlack pc slot a := by
  cases a with
  | none => exact absurd rfl changed
  | some a =>
    cases x with
    | none => exact Nat.succ_pos _
    | some x =>
      have raised := SymValue.slack_merge (fun same => changed (congrArg some same) : a.merge pc slot x ≠ a)
      simp only [mergeReg, regSlack]
      omega

theorem regSlack_merge_le (pc slot : Nat) (a x : Option SymValue) :
    regSlack pc slot (mergeReg pc slot a x) ≤ regSlack pc slot a := by
  by_cases same : mergeReg pc slot a x = a
  · rw [same]
  · exact Nat.le_of_lt (regSlack_merge same)

theorem mergeRegs_cons (pc slot : Nat) (a b : Option SymValue) (as bs : List (Option SymValue)) :
    mergeRegs pc slot (a :: as) (b :: bs) = mergeReg pc slot a b :: mergeRegs pc (slot + 1) as bs := by
  cases a <;> cases b <;> rfl

theorem mergeRegs_getElem? (pc slot : Nat) (a b : List (Option SymValue)) (r : Nat) :
    ((mergeRegs pc slot a b)[r]?).join = mergeReg pc (slot + r) (a[r]?).join (b[r]?).join := by
  induction a generalizing slot b r with
  | nil => simp [mergeRegs, mergeReg]
  | cons v rest ih =>
    cases b with
    | nil => cases found : ((v :: rest)[r]?).join <;> simp [mergeRegs, mergeReg]
    | cons w more =>
      rw [mergeRegs_cons]
      cases r with
      | zero => rfl
      | succ r => simpa [Nat.add_assoc, Nat.add_comm 1 r] using ih (slot + 1) more r

theorem reg_merge {f other merged : Frame} (run : f.merge other pc = .ok merged) (r : Nat) :
    merged.reg r = mergeReg pc r (f.reg r) (other.reg r) := by
  rw [merge_eq pc (depth_of_merge run)] at run
  cases run
  simpa [reg] using mergeRegs_getElem? pc 0 f.regs other.regs r

def regsSlack (pc : Nat) : Nat → List (Option SymValue) → Nat
  | _, [] => 0
  | slot, a :: rest => regSlack pc slot a + regsSlack pc (slot + 1) rest

/-- The slot of a value is the number of values below it after `base`. -/
def stackSlack (pc base : Nat) : List SymValue → Nat
  | [] => 0
  | a :: rest => a.slack pc (base + rest.length) + stackSlack pc base rest

/-- How often the frame before the operation at `pc` can change at most. Should registers be lost, the values of
the stack come to other slots; the first term pays for that. -/
def slack (pc : Nat) (f : Frame) : Nat :=
  (f.stack.length + 1) * f.regs.length + regsSlack pc 0 f.regs + stackSlack pc f.regs.length f.stack + f.subs.length

theorem regsSlack_merge_le (pc slot : Nat) (a b : List (Option SymValue)) :
    regsSlack pc slot (mergeRegs pc slot a b) ≤ regsSlack pc slot a := by
  induction a generalizing slot b with
  | nil => simp [mergeRegs]
  | cons v rest ih =>
    cases b with
    | nil => simp [mergeRegs, regsSlack]
    | cons w more =>
      rw [mergeRegs_cons]
      exact Nat.add_le_add (regSlack_merge_le ..) (ih (slot + 1) more)

/-- Registers that are changed by a merge have fewer changes left. -/
theorem regsSlack_merge {a b : List (Option SymValue)} (length : a.length ≤ b.length)
    (changed : mergeRegs pc slot a b ≠ a) : regsSlack pc slot (mergeRegs pc slot a b) < regsSlack pc slot a := by
  induction a generalizing slot b with
  | nil => exact absurd rfl changed
  | cons v rest ih =>
    cases b with
    | nil => cases length
    | cons w more =>
      rw [mergeRegs_cons] at changed ⊢
      by_cases same : mergeReg pc slot v w = v
      · have later : mergeRegs pc (slot + 1) rest more ≠ rest := fun others => changed (by rw [same, others])
        exact Nat.add_lt_add_of_le_of_lt (regSlack_merge_le ..) (ih (Nat.le_of_succ_le_succ length) later)
      · exact Nat.add_lt_add_of_lt_of_le (regSlack_merge same) (regsSlack_merge_le ..)

theorem stackSlack_merge_le (pc base : Nat) {a b : List SymValue} (length : a.length = b.length) :
    stackSlack pc base (mergeStack pc base a b) ≤ stackSlack pc base a ∧
      (mergeStack pc base a b ≠ a → stackSlack pc base (mergeStack pc base a b) < stackSlack pc base a) := by
  induction a generalizing b with
  | nil => exact ⟨Nat.le_refl _, fun changed => absurd rfl changed⟩
  | cons v rest ih =>
    cases b with
    | nil => cases length
    | cons w more =>
      have length' : rest.length = more.length := Nat.succ.inj length
      obtain ⟨others, othersChanged⟩ := ih length'
      simp only [mergeStack, stackSlack, mergeStack_length, ← length', Nat.min_self]
      by_cases same : SymValue.merge pc (base + rest.length) v w = v
      · rw [same]
        refine ⟨Nat.add_le_add_left others _, fun changed => Nat.add_lt_add_left (othersChanged fun kept => ?_) _⟩
        exact changed (by rw [kept])
      · have raised := SymValue.slack_merge same
        omega

/-- From another slot a value can change once more at most. -/
theorem stackSlack_base (pc base base' : Nat) (stack : List SymValue) :
    stackSlack pc base stack ≤ stackSlack pc base' stack + stack.length := by
  induction stack with
  | nil => exact Nat.le_refl _
  | cons v rest ih =>
    have moved : v.slack pc (base + rest.length) ≤ v.slack pc (base' + rest.length) + 1 := by
      unfold SymValue.slack
      split_ifs <;> omega
    simp only [stackSlack, List.length_cons]
    omega

theorem commonStart_length {a b : List Nat} (changed : commonStart a b ≠ a) : (commonStart a b).length < a.length :=
  (commonStart_within a b).length_le.lt_of_ne fun same => changed ((commonStart_within a b).eq_of_length same)

/-- A frame that changes when another arrives can change less often afterwards. -/
theorem slack_merge {f other merged : Frame} (run : f.merge other pc = .ok merged) (changed : merged ≠ f) :
    merged.slack pc < f.slack pc := by
  have depth := depth_of_merge run
  rw [merge_eq pc depth] at run
  cases run
  have regs := regsSlack_merge_le pc 0 f.regs other.regs
  have stack := stackSlack_merge_le pc f.regs.length depth
  have subs := (commonStart_within f.subs other.subs).length_le
  have height : (mergeStack pc f.regs.length f.stack other.stack).length = f.stack.length := by
    rw [mergeStack_length, depth, Nat.min_self]
  have width := mergeRegs_length pc 0 f.regs other.regs
  simp only [slack, height]
  by_cases lost : other.regs.length < f.regs.length
  · have moved := stackSlack_base pc (mergeRegs pc 0 f.regs other.regs).length f.regs.length
      (mergeStack pc f.regs.length f.stack other.stack)
    have paid : (f.stack.length + 1) * ((mergeRegs pc 0 f.regs other.regs).length + 1) ≤
        (f.stack.length + 1) * f.regs.length :=
      Nat.mul_le_mul_left _ (by omega)
    rw [Nat.mul_succ] at paid
    omega
  · have same : (mergeRegs pc 0 f.regs other.regs).length = f.regs.length := by omega
    rw [same]
    by_cases regsKept : mergeRegs pc 0 f.regs other.regs = f.regs
    · by_cases stackKept : mergeStack pc f.regs.length f.stack other.stack = f.stack
      · have shorter : (commonStart f.subs other.subs).length < f.subs.length :=
          commonStart_length fun subsKept => changed (by rw [regsKept, stackKept, subsKept])
        omega
      · have lower := stack.2 stackKept
        omega
    · have lower := regsSlack_merge (Nat.le_of_not_lt lost) regsKept
      omega

end Frame

end Unstack
