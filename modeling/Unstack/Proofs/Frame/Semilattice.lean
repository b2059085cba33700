import Mathlib.Order.Lattice
import Mathlib.Data.Set.List
import Mathlib.Tactic.Lift
import Unstack.Proofs.Frame.Slack

namespace Unstack

namespace JavaType

variable {a : JavaType}

theorem join_comm (a b : JavaType) : a.join b = b.join a := by
  unfold join
  split_ifs <;> simp_all

theorem null_join (reference : a.isReference) : null.join a = a :=
  (join_comm null a).trans (join_null reference)

theorem isReference_join {b : JavaType} (left : a.isReference) (right : b.isReference) : (a.join b).isReference := by
  have known : a ≠ unknown ∧ b ≠ unknown := by constructor <;> rintro rfl <;> contradiction
  unfold join
  split_ifs <;> simp_all [anyObject, isReference]

theorem isIntLike_join {b : JavaType} (left : a.isIntLike) (right : b.isIntLike) : (a.join b).isIntLike := by
  have known : a ≠ unknown ∧ b ≠ unknown := by constructor <;> rintro rfl <;> contradiction
  have other : ¬ a.isReference := by cases a <;> simp_all [isIntLike, isReference]
  unfold join
  split_ifs <;> simp_all [isIntLike]

/-- A type above two others is above their join. -/
theorem join_least {x y : JavaType} (left : a.join x = a) (right : a.join y = a) : a.join (x.join y) = a := by
  rcases below_of_join_eq left with rfl | rfl | ⟨rfl, reference⟩ | ⟨rfl, reference⟩ | ⟨rfl, intLike⟩
  · exact unknown_join _
  · rw [right, join_self]
  · rcases below_of_join_eq right with rfl | rfl | ⟨rfl, _⟩ | ⟨rfl, other⟩ | ⟨rfl, _⟩
    · exact unknown_join _
    · rw [null_join reference, join_self]
    · rwa [join_self]
    · rwa [null_join other]
    · cases reference
  · rcases below_of_join_eq right with impossible | rfl | ⟨rfl, _⟩ | ⟨_, other⟩ | ⟨impossible, _⟩
    · cases impossible
    · rw [join_comm x, left, join_self]
    · rwa [join_null reference]
    · exact anyObject_join (isReference_join reference other)
    · cases impossible
  · rcases below_of_join_eq right with impossible | rfl | ⟨_, impossible⟩ | ⟨impossible, _⟩ | ⟨_, other⟩
    · cases impossible
    · rw [join_comm x, left, join_self]
    · cases impossible
    · cases impossible
    · exact int_join (isIntLike_join intLike other)

theorem join_join_left (a b : JavaType) : (a.join b).join a = a.join b := join_absorbs (join_self a) b

theorem join_join_right (a b : JavaType) : (a.join b).join b = a.join b := by
  rw [join_comm a b, join_join_left]

/-- A type is above another if the join does not change it. -/
instance : SemilatticeSup JavaType where
  le x a := a.join x = a
  le_refl := join_self
  le_trans x a b below above := by
    have stays := join_absorbs below b
    rwa [join_comm a b, above] at stays
  le_antisymm a b below above := by rw [← above, join_comm, below]
  sup := join
  le_sup_left := join_join_left
  le_sup_right := join_join_right
  sup_le _ _ _ := join_least

theorem join_assoc (a b c : JavaType) : (a.join b).join c = a.join (b.join c) := sup_assoc a b c

end JavaType

namespace SymValue

theorem merge_comm (pc slot : Nat) (a b : SymValue) : merge pc slot a b = merge pc slot b a := by
  by_cases same : a = b
  · rw [same]
  · simp only [merge, if_neg same, if_neg (Ne.symm same), JavaType.join_comm]

/-- A value that is already defined by the join changes its type alone. -/
theorem merged_merge (pc slot : Nat) (t : JavaType) (b : SymValue) :
    merge pc slot ⟨pc, slot, t, .merged⟩ b = ⟨pc, slot, t.join b.type, .merged⟩ := by
  unfold merge
  split
  · rename_i same
    rw [← same, JavaType.join_self]
  · rfl

theorem merge_merge_left (pc slot : Nat) (a b : SymValue) :
    merge pc slot (merge pc slot a b) a = merge pc slot a b := merge_absorbs (merge_self pc slot a) b

theorem merge_assoc (pc slot : Nat) (a b c : SymValue) :
    merge pc slot (merge pc slot a b) c = merge pc slot a (merge pc slot b c) := by
  by_cases left : a = b
  · subst left
    rw [merge_self, merge_comm pc slot a (merge pc slot a c), merge_merge_left]
  · by_cases right : b = c
    · subst right
      rw [merge_self, merge_comm pc slot a b, merge_merge_left]
    · have first : merge pc slot a b = ⟨pc, slot, a.type.join b.type, .merged⟩ := if_neg left
      have last : merge pc slot b c = ⟨pc, slot, b.type.join c.type, .merged⟩ := if_neg right
      rw [first, last, merged_merge, merge_comm, merged_merge, JavaType.join_assoc, JavaType.join_comm _ a.type]

end SymValue

namespace Frame

theorem mergeReg_comm (pc slot : Nat) (a b : Option SymValue) : mergeReg pc slot a b = mergeReg pc slot b a := by
  cases a with
  | none => cases b <;> rfl
  | some a =>
    cases b with
    | none => rfl
    | some b => exact congrArg some (SymValue.merge_comm pc slot a b)

theorem mergeReg_assoc (pc slot : Nat) (a b c : Option SymValue) :
    mergeReg pc slot (mergeReg pc slot a b) c = mergeReg pc slot a (mergeReg pc slot b c) := by
  cases a with
  | none => rfl
  | some a =>
    cases b with
    | none => rfl
    | some b =>
      cases c with
      | none => rfl
      | some c => exact congrArg some (SymValue.merge_assoc pc slot a b c)

theorem mergeRegs_comm (pc slot : Nat) (a b : List (Option SymValue)) :
    mergeRegs pc slot a b = mergeRegs pc slot b a := by
  induction a generalizing slot b with
  | nil => cases b <;> rfl
  | cons v rest ih =>
    cases b with
    | nil => rfl
    | cons w more => rw [mergeRegs_cons, mergeRegs_cons, mergeReg_comm, ih]

theorem mergeRegs_assoc (pc slot : Nat) (a b c : List (Option SymValue)) :
    mergeRegs pc slot (mergeRegs pc slot a b) c = mergeRegs pc slot a (mergeRegs pc slot b c) := by
  induction a generalizing slot b c with
  | nil => cases b <;> cases c <;> rfl
  | cons v rest ih =>
    cases b with
    | nil => cases c <;> rfl
    | cons w more =>
      cases c with
      | nil => rfl
      | cons u others => simp only [mergeRegs_cons, mergeReg_assoc, ih]

/-- The slots of a stack are counted from its bottom, so that both stacks must have the same depth. -/
theorem mergeStack_comm (pc base : Nat) {a b : List SymValue} (depth : a.length = b.length) :
    mergeStack pc base a b = mergeStack pc base b a := by
  induction a generalizing b with
  | nil => cases b <;> rfl
  | cons v rest ih =>
    cases b with
    | nil => rfl
    | cons w more =>
      have depth' : rest.length = more.length := Nat.succ.inj depth
      rw [mergeStack, mergeStack, ih depth', depth', SymValue.merge_comm]

theorem mergeStack_assoc (pc base : Nat) {a b c : List SymValue} (depth : a.length = b.length)
    (depth' : b.length = c.length) :
    mergeStack pc base (mergeStack pc base a b) c = mergeStack pc base a (mergeStack pc base b c) := by
  induction a generalizing b c with
  | nil => cases b <;> cases c <;> rfl
  | cons v rest ih =>
    cases b with
    | nil => cases depth
    | cons w more =>
      cases c with
      | nil => cases depth'
      | cons u others =>
        have left : rest.length = more.length := Nat.succ.inj depth
        have right : more.length = others.length := Nat.succ.inj depth'
        simp only [mergeStack, mergeStack_length, left, right, Nat.min_self, SymValue.merge_assoc, ih left right]

/-- The common start is the longest of the common starts. -/
theorem prefix_commonStart {p a b : List Nat} : p <+: commonStart a b ↔ p <+: a ∧ p <+: b := by
  induction p generalizing a b with
  | nil => simp
  | cons z rest ih =>
    cases a with
    | nil => simp [commonStart]
    | cons x as =>
      cases b with
      | nil => simp [commonStart]
      | cons y bs =>
        by_cases same : x = y
        · subst same
          simp only [commonStart, if_true, List.cons_prefix_cons, ih]
          tauto
        · simp only [commonStart, if_neg same, List.cons_prefix_cons, List.prefix_nil, reduceCtorEq, false_iff]
          rintro ⟨⟨rfl, _⟩, rfl, _⟩
          exact same rfl

theorem eq_of_prefix_iff {a b : List Nat} (starts : ∀ p : List Nat, p <+: a ↔ p <+: b) : a = b := by
  have left : a <+: b := (starts a).mp List.prefix_rfl
  have right : b <+: a := (starts b).mpr List.prefix_rfl
  exact left.eq_of_length_le right.length_le

theorem commonStart_comm (a b : List Nat) : commonStart a b = commonStart b a :=
  eq_of_prefix_iff fun p => by rw [prefix_commonStart, prefix_commonStart, and_comm]

theorem commonStart_assoc (a b c : List Nat) :
    commonStart (commonStart a b) c = commonStart a (commonStart b c) :=
  eq_of_prefix_iff fun p => by simp only [prefix_commonStart, and_assoc]

/-- Two frames that can meet: as many registers, stacks of the same depth and the same bound. -/
structure SameShape (f g : Frame) : Prop where
  regs : f.regs.length = g.regs.length
  depth : f.stack.length = g.stack.length
  maxStack : f.maxStack = g.maxStack

theorem SameShape.refl (f : Frame) : f.SameShape f := ⟨rfl, rfl, rfl⟩

theorem SameShape.trans {f g h : Frame} (first : f.SameShape g) (second : g.SameShape h) : f.SameShape h :=
  ⟨first.regs.trans second.regs, first.depth.trans second.depth, first.maxStack.trans second.maxStack⟩

end Frame

/-- A frame of one shape that arrives at the operation `pc`. -/
@[ext]
structure Arrival (pc regs depth maxStack : Nat) where
  frame : Frame
  regs_length : frame.regs.length = regs
  stack_length : frame.stack.length = depth
  bound : frame.maxStack = maxStack

namespace Arrival

variable {pc regs depth maxStack : Nat}

/-- Arrivals meet in the frame that `Frame.merge` computes. -/
instance : Max (Arrival pc regs depth maxStack) where
  max f g :=
    { frame :=
        { regs := Frame.mergeRegs pc 0 f.frame.regs g.frame.regs
          stack := Frame.mergeStack pc regs f.frame.stack g.frame.stack
          subs := Frame.commonStart f.frame.subs g.frame.subs
          maxStack := maxStack }
      regs_length := by rw [Frame.mergeRegs_length, f.regs_length, g.regs_length, Nat.min_self]
      stack_length := by rw [Frame.mergeStack_length, f.stack_length, g.stack_length, Nat.min_self]
      bound := rfl }

theorem merge_eq_sup (f g : Arrival pc regs depth maxStack) : f.frame.merge g.frame pc = .ok (f ⊔ g).frame := by
  rw [Frame.merge_eq pc (f.stack_length.trans g.stack_length.symm), f.regs_length, f.bound]
  rfl

theorem eq_of_parts {f g : Arrival pc regs depth maxStack} (sameRegs : f.frame.regs = g.frame.regs)
    (sameStack : f.frame.stack = g.frame.stack) (sameSubs : f.frame.subs = g.frame.subs) : f = g := by
  have sameBound : f.frame.maxStack = g.frame.maxStack := f.bound.trans g.bound.symm
  exact Arrival.ext ((Frame.mk.injEq ..).mpr ⟨sameRegs, sameStack, sameSubs, sameBound⟩)

instance : SemilatticeSup (Arrival pc regs depth maxStack) :=
  SemilatticeSup.mk'
    (fun f g => eq_of_parts (Frame.mergeRegs_comm ..)
      (Frame.mergeStack_comm pc regs (f.stack_length.trans g.stack_length.symm)) (Frame.commonStart_comm ..))
    (fun f g h => eq_of_parts (Frame.mergeRegs_assoc ..)
      (Frame.mergeStack_assoc pc regs (f.stack_length.trans g.stack_length.symm)
        (g.stack_length.trans h.stack_length.symm)) (Frame.commonStart_assoc ..))
    (fun _ => eq_of_parts (Frame.mergeRegs_self ..) (Frame.mergeStack_self ..)
      (Frame.commonStart_eq_self.mpr List.prefix_rfl))

/-- Merging one frame after the other gives the least upper bound of all of them. -/
theorem foldl_le_iff (first : Arrival pc regs depth maxStack) (rest : List (Arrival pc regs depth maxStack))
    (bound : Arrival pc regs depth maxStack) :
    rest.foldl (· ⊔ ·) first ≤ bound ↔ ∀ f ∈ first :: rest, f ≤ bound := by
  induction rest generalizing first with
  | nil => simp
  | cons f rest ih => simp [ih, sup_le_iff, and_assoc]

/-- Neither the order nor the number of arrivals matters. -/
theorem foldl_eq_of_members {first first' : Arrival pc regs depth maxStack}
    {rest rest' : List (Arrival pc regs depth maxStack)} (members : ∀ f, f ∈ first :: rest ↔ f ∈ first' :: rest') :
    rest.foldl (· ⊔ ·) first = rest'.foldl (· ⊔ ·) first' :=
  eq_of_forall_ge_iff fun bound => by simp only [foldl_le_iff, members]

theorem foldlM_merge (first : Arrival pc regs depth maxStack) (rest : List (Arrival pc regs depth maxStack)) :
    (rest.map frame).foldlM (fun f g => f.merge g pc) first.frame = .ok (rest.foldl (· ⊔ ·) first).frame := by
  induction rest generalizing first with
  | nil => rfl
  | cons f rest ih =>
    rw [List.map_cons, List.foldlM_cons, merge_eq_sup]
    exact ih (first ⊔ f)

/-- A frame is an arrival of the shape of any frame that it can meet. -/
def ofShape {f g : Frame} (shape : f.SameShape g) : Arrival pc f.regs.length f.stack.length f.maxStack :=
  ⟨g, shape.regs.symm, shape.depth.symm, shape.maxStack.symm⟩

instance (f : Frame) : CanLift Frame (Arrival pc f.regs.length f.stack.length f.maxStack) frame f.SameShape where
  prf _ shape := ⟨ofShape shape, rfl⟩

end Arrival

namespace Frame

/-- Frames can be merged exactly if their stacks are equally deep. -/
theorem merge_fails_iff (f g : Frame) (pc : Nat) :
    (∃ why, f.merge g pc = .error why) ↔ f.stack.length ≠ g.stack.length := by
  constructor
  · rintro ⟨why, failed⟩ depth
    rw [merge_eq pc depth] at failed
    cases failed
  · intro differ
    exact ⟨_, if_pos differ⟩

theorem SameShape.merge_comm {f g : Frame} (shape : f.SameShape g) (pc : Nat) :
    ∃ m, f.merge g pc = .ok m ∧ g.merge f pc = .ok m := by
  let a : Arrival pc f.regs.length f.stack.length f.maxStack := .ofShape (.refl f)
  let b : Arrival pc f.regs.length f.stack.length f.maxStack := .ofShape shape
  refine ⟨(a ⊔ b).frame, Arrival.merge_eq_sup a b, ?_⟩
  rw [sup_comm]
  exact Arrival.merge_eq_sup b a

theorem SameShape.merge_assoc {f g h : Frame} (shape : f.SameShape g) (shape' : g.SameShape h) (pc : Nat) :
    ∃ left right m, f.merge g pc = .ok left ∧ g.merge h pc = .ok right ∧
      left.merge h pc = .ok m ∧ f.merge right pc = .ok m := by
  let a : Arrival pc f.regs.length f.stack.length f.maxStack := .ofShape (.refl f)
  let b : Arrival pc f.regs.length f.stack.length f.maxStack := .ofShape shape
  let c : Arrival pc f.regs.length f.stack.length f.maxStack := .ofShape (shape.trans shape')
  refine ⟨(a ⊔ b).frame, (b ⊔ c).frame, (a ⊔ b ⊔ c).frame, Arrival.merge_eq_sup a b, Arrival.merge_eq_sup b c,
    Arrival.merge_eq_sup (a ⊔ b) c, ?_⟩
  rw [sup_assoc]
  exact Arrival.merge_eq_sup a (b ⊔ c)

/-- What a list of frames is merged to depends only on which frames are in it. -/
theorem foldlM_merge_eq_of_members {first first' : Frame} {rest rest' : List Frame} (pc : Nat)
    (shapes : ∀ f ∈ rest, first.SameShape f) (members : ∀ f, f ∈ first :: rest ↔ f ∈ first' :: rest') :
    ∃ m, rest.foldlM (fun f g => f.merge g pc) first = .ok m ∧
      rest'.foldlM (fun f g => f.merge g pc) first' = .ok m := by
  have shapes' : ∀ f ∈ first' :: rest', first.SameShape f := by
    intro f inside
    rcases List.mem_cons.mp ((members f).mpr inside) with rfl | inside
    · exact .refl f
    · exact shapes f inside
  let a : Arrival pc first.regs.length first.stack.length first.maxStack := .ofShape (.refl first)
  let b : Arrival pc first.regs.length first.stack.length first.maxStack := .ofShape (shapes' first' (.head _))
  lift rest to List (Arrival pc first.regs.length first.stack.length first.maxStack) using shapes
  lift rest' to List (Arrival pc first.regs.length first.stack.length first.maxStack)
    using fun f inside => shapes' f (.tail _ inside)
  have same : rest.foldl (· ⊔ ·) a = rest'.foldl (· ⊔ ·) b := by
    apply Arrival.foldl_eq_of_members
    intro f
    have back : ∀ (g : Arrival pc first.regs.length first.stack.length first.maxStack) fs,
        f.frame ∈ (g :: fs).map Arrival.frame ↔ f ∈ g :: fs := fun g fs =>
      List.mem_map_of_injective fun _ _ => Arrival.ext
    rw [← back, ← back]
    exact members f.frame
  refine ⟨(rest.foldl (· ⊔ ·) a).frame, Arrival.foldlM_merge a rest, ?_⟩
  rw [same]
  exact Arrival.foldlM_merge b rest'

/-- Merging frames at one place is a semilattice: it fails exactly where the stacks have different depths, and
frames of one shape can be merged in any order, in any grouping and as often as one likes. -/
theorem merge_semilattice (pc : Nat) :
    (∀ f g : Frame, f.regs.length = g.regs.length → f.maxStack = g.maxStack →
      ((∃ why, f.merge g pc = .error why) ↔ f.stack.length ≠ g.stack.length)) ∧
    (∀ f : Frame, f.merge f pc = .ok f) ∧
    (∀ f g : Frame, f.SameShape g → ∃ m, f.merge g pc = .ok m ∧ g.merge f pc = .ok m) ∧
    (∀ f g h : Frame, f.SameShape g → g.SameShape h → ∃ left right m,
      f.merge g pc = .ok left ∧ g.merge h pc = .ok right ∧ left.merge h pc = .ok m ∧ f.merge right pc = .ok m) ∧
    ∀ (first first' : Frame) (rest rest' : List Frame), (∀ f ∈ rest, first.SameShape f) →
      (∀ f, f ∈ first :: rest ↔ f ∈ first' :: rest') → ∃ m,
        rest.foldlM (fun f g => f.merge g pc) first = .ok m ∧ rest'.foldlM (fun f g => f.merge g pc) first' = .ok m :=
  ⟨fun f g _ _ => merge_fails_iff f g pc, fun f => merge_self f pc, fun _ _ shape => shape.merge_comm pc,
    fun _ _ _ shape shape' => shape.merge_assoc shape' pc, fun _ _ _ _ => foldlM_merge_eq_of_members pc⟩

/-- A frame with one register and one value on the stack, as it arrives at the operation 7. -/
def met (reg : Option SymValue) (top : SymValue) (subs : List Nat) : Frame := ⟨[reg], [top], subs, 2⟩

theorem merge_semilattice_met :
    let f := met (some ⟨1, 0, .byte, .defined⟩) ⟨2, 1, .null, .defined⟩ [4, 9]
    let g := met (some ⟨7, 0, .short, .merged⟩) ⟨3, 1, .object "java.lang.String", .defined⟩ [4, 9, 11]
    let h := met (some ⟨7, 0, .int, .merged⟩) ⟨7, 1, .array .int, .merged⟩ [4]
    let m := met (some ⟨7, 0, .int, .merged⟩) ⟨7, 1, .anyObject, .merged⟩ [4]
    [g, h].foldlM (fun f g => f.merge g 7) f = .ok m ∧ [g, f, h, g].foldlM (fun f g => f.merge g 7) h = .ok m := by
  intro f g h m
  obtain ⟨m', left, right⟩ := (merge_semilattice 7).2.2.2.2 f h [g, h] [g, f, h, g]
    (by intro x inside
        simp only [List.mem_cons, List.not_mem_nil, or_false] at inside
        rcases inside with rfl | rfl <;> exact ⟨rfl, rfl, rfl⟩)
    (by intro x
        simp only [List.mem_cons, List.not_mem_nil, or_false]
        tauto)
  have value : [g, h].foldlM (fun f g => f.merge g 7) f = .ok m := by decide
  have same : m' = m := Except.ok.inj (left.symm.trans value)
  exact ⟨value, same ▸ right⟩

end Frame

end Unstack
