import Mathlib.Data.List.Infix
import Mathlib.Tactic.SplitIfs
import Unstack.Frame

namespace Unstack

namespace JavaType

variable {x a : JavaType}

theorem join_self (a : JavaType) : a.join a = a := if_pos rfl

theorem unknown_join (x : JavaType) : unknown.join x = unknown := by
  unfold join
  split_ifs <;> simp_all

theorem join_null (reference : a.isReference) : a.join null = a := by
  unfold join
  split_ifs <;> simp_all [isReference]

theorem anyObject_join (reference : x.isReference) : anyObject.join x = anyObject := by
  unfold join
  split_ifs <;> simp_all [isReference, anyObject]

theorem int_join (intLike : x.isIntLike) : int.join x = int := by
  unfold join
  split_ifs <;> simp_all [isReference, isIntLike]

/-- Joining types gives one of them, or a type above both. -/
theorem join_cases (a b : JavaType) :
    a.join b = unknown ∨ (a.join b = a ∧ (b = a ∨ (b = null ∧ a.isReference))) ∨
      (a.join b = b ∧ a = null ∧ b.isReference) ∨ (a.join b = anyObject ∧ a.isReference ∧ b.isReference) ∨
      (a.join b = int ∧ a.isIntLike ∧ b.isIntLike) := by
  unfold join
  split_ifs <;> simp_all

theorem below_of_join_eq (absorbs : a.join x = a) :
    a = unknown ∨ x = a ∨ (x = null ∧ a.isReference) ∨ (a = anyObject ∧ x.isReference) ∨ (a = int ∧ x.isIntLike) := by
  rcases join_cases a x with up | ⟨_, rfl | below⟩ | ⟨up, _⟩ | ⟨up, _, reference⟩ | ⟨up, _, intLike⟩
  · exact .inl (absorbs.symm.trans up)
  · exact .inr (.inl rfl)
  · exact .inr (.inr (.inl below))
  · exact .inr (.inl (up.symm.trans absorbs))
  · exact .inr (.inr (.inr (.inl ⟨absorbs.symm.trans up, reference⟩)))
  · exact .inr (.inr (.inr (.inr ⟨absorbs.symm.trans up, intLike⟩)))

/-- Once a type is above another, what it is joined with later stays above that. -/
theorem join_absorbs (absorbs : a.join x = a) (y : JavaType) : (a.join y).join x = a.join y := by
  have below := below_of_join_eq absorbs
  rcases join_cases a y with up | ⟨up, _⟩ | ⟨up, rfl, reference⟩ | ⟨up, reference, _⟩ | ⟨up, intLike, _⟩
  · rw [up, unknown_join]
  · rw [up, absorbs]
  · have isNull : x = null := by
      rcases below with h | h | h | h | h <;> simp_all [anyObject]
    rw [up, isNull, join_null reference]
  · have reference' : x.isReference := by
      rcases below with rfl | rfl | ⟨rfl, _⟩ | ⟨_, h⟩ | ⟨rfl, _⟩
      · cases reference
      · exact reference
      · rfl
      · exact h
      · cases reference
    rw [up, anyObject_join reference']
  · have intLike' : x.isIntLike := by
      rcases below with rfl | rfl | ⟨_, reference⟩ | ⟨rfl, _⟩ | ⟨_, h⟩
      · cases intLike
      · exact intLike
      · cases a <;> simp_all [isIntLike, isReference]
      · cases intLike
      · exact h
    rw [up, int_join intLike']

end JavaType

namespace SymValue

theorem merge_self (pc slot : Nat) (a : SymValue) : merge pc slot a a = a := if_pos rfl

/-- A value that absorbs another goes on doing so. -/
theorem merge_absorbs {pc slot : Nat} {a x : SymValue} (absorbs : merge pc slot a x = a) (y : SymValue) :
    merge pc slot (merge pc slot a y) x = merge pc slot a y := by
  have types : a.type.join x.type = a.type := by
    unfold merge at absorbs
    split at absorbs
    · rename_i same
      rw [same, JavaType.join_self]
    · exact congrArg SymValue.type absorbs
  by_cases same : a = y
  · rw [← same, merge_self, absorbs]
  · have joined : merge pc slot a y = ⟨pc, slot, a.type.join y.type, .merged⟩ := if_neg same
    rw [joined]
    unfold merge
    split
    · rfl
    · rw [JavaType.join_absorbs types]

end SymValue

namespace Frame

variable {pc : Nat} {f other merged : Frame}

theorem mergeRegs_self (pc slot : Nat) (regs : List (Option SymValue)) : mergeRegs pc slot regs regs = regs := by
  induction regs generalizing slot with
  | nil => rfl
  | cons a rest ih =>
    cases a with
    | none => simp [mergeRegs, ih]
    | some a => simp [mergeRegs, ih, SymValue.merge_self]

theorem mergeRegs_absorbs {slot : Nat} {a x : List (Option SymValue)} (absorbs : mergeRegs pc slot a x = a)
    (y : List (Option SymValue)) : mergeRegs pc slot (mergeRegs pc slot a y) x = mergeRegs pc slot a y := by
  induction a generalizing slot x y with
  | nil => simp [mergeRegs]
  | cons v rest ih =>
    cases x with
    | nil => simp [mergeRegs] at absorbs
    | cons w more =>
      cases y with
      | nil => simp [mergeRegs]
      | cons u others =>
        simp only [mergeRegs, List.cons.injEq] at absorbs ⊢
        refine ⟨?_, ih absorbs.2 others⟩
        cases v with
        | none => simp
        | some v =>
          cases w with
          | none => simp at absorbs
          | some w =>
            cases u with
            | none => simp
            | some u =>
              simp only [Option.some.injEq] at absorbs ⊢
              exact SymValue.merge_absorbs absorbs.1 u

theorem mergeRegs_length (pc slot : Nat) (a b : List (Option SymValue)) :
    (mergeRegs pc slot a b).length = min a.length b.length := by
  induction a generalizing slot b with
  | nil => simp [mergeRegs]
  | cons v rest ih =>
    cases b with
    | nil => simp [mergeRegs]
    | cons w more =>
      simp only [mergeRegs, List.length_cons, ih]
      omega

theorem mergeStack_self (pc base : Nat) (stack : List SymValue) : mergeStack pc base stack stack = stack := by
  induction stack with
  | nil => rfl
  | cons a rest ih => rw [mergeStack, ih, SymValue.merge_self]

theorem mergeStack_length (pc base : Nat) (a b : List SymValue) :
    (mergeStack pc base a b).length = min a.length b.length := by
  induction a generalizing b with
  | nil => simp [mergeStack]
  | cons v rest ih =>
    cases b with
    | nil => simp [mergeStack]
    | cons w more =>
      simp only [mergeStack, List.length_cons, ih]
      omega

theorem mergeStack_absorbs {base : Nat} {a x y : List SymValue} (absorbs : mergeStack pc base a x = a)
    (length : a.length = y.length) :
    mergeStack pc base (mergeStack pc base a y) x = mergeStack pc base a y := by
  induction a generalizing x y with
  | nil => simp [mergeStack]
  | cons v rest ih =>
    cases x with
    | nil => simp [mergeStack] at absorbs
    | cons w more =>
      cases y with
      | nil => simp at length
      | cons u others =>
        simp only [List.length_cons, Nat.add_right_cancel_iff] at length
        simp only [mergeStack, List.cons.injEq, mergeStack_length, length, Nat.min_self] at absorbs ⊢
        exact ⟨SymValue.merge_absorbs absorbs.1 u, ih absorbs.2 length⟩

theorem commonStart_within (a b : List Nat) : commonStart a b <+: a := by
  induction a generalizing b with
  | nil => simp [commonStart]
  | cons x rest ih =>
    cases b with
    | nil => simp [commonStart]
    | cons y more =>
      unfold commonStart
      split
      · exact List.cons_prefix_cons.mpr ⟨rfl, ih more⟩
      · exact List.nil_prefix

theorem commonStart_eq_self {a b : List Nat} : commonStart a b = a ↔ a <+: b := by
  induction a generalizing b with
  | nil => simp [commonStart]
  | cons x rest ih =>
    cases b with
    | nil => simp [commonStart]
    | cons y more =>
      unfold commonStart
      split
      · rename_i same
        simp [same, ih]
      · rename_i different
        simp [different]

theorem merge_eq (pc : Nat) (depth : f.stack.length = other.stack.length) : f.merge other pc = .ok
      { f with
        regs := mergeRegs pc 0 f.regs other.regs
        stack := mergeStack pc f.regs.length f.stack other.stack
        subs := commonStart f.subs other.subs } := by
  unfold merge
  rw [if_neg (by simpa using depth)]
  split
  · rename_i same
    subst same
    rw [mergeRegs_self, mergeStack_self, commonStart_eq_self.mpr List.prefix_rfl]
  · rfl

theorem depth_of_merge (run : f.merge other pc = .ok merged) : f.stack.length = other.stack.length := by
  by_contra different
  rw [merge, if_pos different] at run
  cases run

theorem merge_self (f : Frame) (pc : Nat) : f.merge f pc = .ok f := by
  rw [merge_eq pc rfl, mergeRegs_self, mergeStack_self, commonStart_eq_self.mpr List.prefix_rfl]

/-- What a merge gives is made of the frame that was there: it has as many registers as both, and it is in no
further subroutine. -/
theorem merge_shape (run : f.merge other pc = .ok merged) :
    merged.regs.length = min f.regs.length other.regs.length ∧ merged.subs <+: f.subs := by
  rw [merge_eq pc (depth_of_merge run)] at run
  cases run
  exact ⟨mergeRegs_length .., commonStart_within ..⟩

/-- A frame that was taken up once stays so whatever arrives later. -/
theorem merge_absorbs {x y : Frame} (absorbs : f.merge x pc = .ok f)
    (regs : f.regs.length = y.regs.length) (run : f.merge y pc = .ok merged) : merged.merge x pc = .ok merged := by
  have depth := depth_of_merge absorbs
  have depth' := depth_of_merge run
  rw [merge_eq pc depth] at absorbs
  rw [merge_eq pc depth'] at run
  simp only [Except.ok.injEq] at absorbs run
  have sameRegs := congrArg Frame.regs absorbs
  have sameStack := congrArg Frame.stack absorbs
  have sameSubs := congrArg Frame.subs absorbs
  simp only at sameRegs sameStack sameSubs
  subst run
  have length : (mergeRegs pc 0 f.regs y.regs).length = f.regs.length := by
    rw [mergeRegs_length, regs, Nat.min_self]
  have subs : commonStart (commonStart f.subs y.subs) x.subs = commonStart f.subs y.subs :=
    commonStart_eq_self.mpr ((commonStart_within ..).trans (commonStart_eq_self.mp sameSubs))
  rw [merge_eq pc (by simp only [mergeStack_length]; omega)]
  simp only [length, mergeRegs_absorbs sameRegs, mergeStack_absorbs sameStack depth', subs]

end Frame

end Unstack
