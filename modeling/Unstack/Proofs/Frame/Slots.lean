import Unstack.Proofs.Frame.Effect
import Unstack.Recovery.Scratch

namespace Unstack

variable {form : DupForm} {values : List SymValue}

/-- A slot of the operand stack: the value that it belongs to, and which of the value's slots it is, the upper one
first. -/
structure Slot where
  value : SymValue
  index : Nat
  deriving DecidableEq

def SymValue.slots (v : SymValue) : List Slot := (List.range v.type.slotCount).map (Slot.mk v)

/-- The slots of a stack of values: two for each that is wide and one for any other. -/
def slotsOf (stack : List SymValue) : List Slot := stack.flatMap SymValue.slots

/-- What a form of `dup` that counts slots does, if there are enough of them. -/
def DupForm.onSlots : DupForm → List Slot → Option (List Slot)
  | dup, a :: rest => some (a :: a :: rest)
  | dupX1, a :: b :: rest => some (a :: b :: a :: rest)
  | dupX2, a :: b :: c :: rest => some (a :: b :: c :: a :: rest)
  | dup2, a :: b :: rest => some (a :: b :: a :: b :: rest)
  | dup2X1, a :: b :: c :: rest => some (a :: b :: c :: a :: b :: rest)
  | dup2X2, a :: b :: c :: d :: rest => some (a :: b :: c :: d :: a :: b :: rest)
  | _, _ => none

def PopForm.onSlots : PopForm → List Slot → Option (List Slot)
  | pop, _ :: rest => some rest
  | pop2, _ :: _ :: rest => some rest
  | _, _ => none

theorem slotsOf_append (upper lower : List SymValue) : slotsOf (upper ++ lower) = slotsOf upper ++ slotsOf lower :=
  List.flatMap_append

theorem slotsOf_cons_length (v : SymValue) (rest : List SymValue) :
    (slotsOf (v :: rest)).length = v.type.slotCount + (slotsOf rest).length := by
  simp [slotsOf, SymValue.slots]

theorem slotsOf_eq_nil (none : (slotsOf values).length = 0) : values = [] := by
  cases values with
  | nil => rfl
  | cons v rest =>
    rw [slotsOf_cons_length, JavaType.slotCount] at none
    split at none <;> omega

theorem one_slot (one : (slotsOf values).length = 1) : ∃ v, values = [v] ∧ v.type.isWide = false := by
  cases values with
  | nil => cases one
  | cons v rest =>
    rw [slotsOf_cons_length, JavaType.slotCount] at one
    split at one
    · omega
    · have alone : rest = [] := slotsOf_eq_nil (by omega)
      rw [alone]
      exact ⟨v, rfl, Bool.eq_false_iff.mpr ‹_›⟩

/-- Two slots are filled by a wide value or by two others. -/
theorem two_slots (two : (slotsOf values).length = 2) : (∃ v, values = [v] ∧ v.type.isWide = true) ∨
      ∃ v w, values = [v, w] ∧ v.type.isWide = false ∧ w.type.isWide = false := by
  cases values with
  | nil => cases two
  | cons v rest =>
    rw [slotsOf_cons_length, JavaType.slotCount] at two
    split at two
    · have alone : rest = [] := slotsOf_eq_nil (by omega)
      rw [alone]
      exact .inl ⟨v, rfl, ‹_›⟩
    · have next : (slotsOf rest).length = 1 := by omega
      obtain ⟨w, rfl, narrow⟩ := one_slot next
      exact .inr ⟨v, w, rfl, Bool.eq_false_iff.mpr ‹_›, narrow⟩

section Forms

variable {f : Frame} {top under rest : List SymValue}

/-- Where the slots that are copied and those that are skipped end with a value, the form that counts values counts
just these values. -/
theorem DupForm.onValues_shape (stack : f.stack = top ++ (under ++ rest))
    (copied : (slotsOf top).length = form.shape.1) (skipped : (slotsOf under).length = form.shape.2) :
    (form.onValues f).shape = (top.length, under.length) := by
  cases form with
  | dup =>
    obtain ⟨v, rfl, _⟩ := one_slot copied
    cases slotsOf_eq_nil skipped
    rfl
  | dupX1 =>
    obtain ⟨v, rfl, _⟩ := one_slot copied
    obtain ⟨w, rfl, _⟩ := one_slot skipped
    rfl
  | dupX2 =>
    obtain ⟨v, rfl, _⟩ := one_slot copied
    obtain ⟨w, rfl, wide⟩ | ⟨w, x, rfl, narrow, _⟩ := two_slots skipped
    · simp [onValues, Frame.isWideAt, Frame.peekAt, stack, wide, shape]
    · simp [onValues, Frame.isWideAt, Frame.peekAt, stack, narrow, shape]
  | dup2 =>
    cases slotsOf_eq_nil skipped
    obtain ⟨v, rfl, wide⟩ | ⟨v, w, rfl, narrow, _⟩ := two_slots copied
    · simp [onValues, Frame.isWideAt, Frame.peekAt, stack, wide, shape]
    · simp [onValues, Frame.isWideAt, Frame.peekAt, stack, narrow, shape]
  | dup2X1 =>
    obtain ⟨x, rfl, _⟩ := one_slot skipped
    obtain ⟨v, rfl, wide⟩ | ⟨v, w, rfl, narrow, _⟩ := two_slots copied
    · simp [onValues, Frame.isWideAt, Frame.peekAt, stack, wide, shape]
    · simp [onValues, Frame.isWideAt, Frame.peekAt, stack, narrow, shape]
  | dup2X2 =>
    obtain ⟨v, rfl, wide⟩ | ⟨v, w, rfl, narrow, _⟩ := two_slots copied <;>
    obtain ⟨x, rfl, wide'⟩ | ⟨x, y, rfl, narrow', _⟩ := two_slots skipped
    · simp [onValues, Frame.isWideAt, Frame.peekAt, stack, wide, wide', shape]
    · simp [onValues, Frame.isWideAt, Frame.peekAt, stack, wide, narrow', shape]
    · simp [onValues, Frame.isWideAt, Frame.peekAt, stack, narrow, wide', shape]
    · simp [onValues, Frame.isWideAt, Frame.peekAt, stack, narrow, narrow', shape]

theorem PopForm.onValues_count {form : PopForm} (stack : f.stack = top ++ rest)
    (dropped : (slotsOf top).length = form.count) : (form.onValues f).count = top.length := by
  cases form with
  | pop =>
    obtain ⟨v, rfl, _⟩ := one_slot dropped
    rfl
  | pop2 =>
    obtain ⟨v, rfl, wide⟩ | ⟨v, w, rfl, narrow, _⟩ := two_slots dropped
    · simp [onValues, Frame.isWideAt, Frame.peekAt, stack, wide, count]
    · simp [onValues, Frame.isWideAt, Frame.peekAt, stack, narrow, count]

theorem DupForm.onSlots_append {xs ys : List Slot} (copied : xs.length = form.shape.1)
    (skipped : ys.length = form.shape.2) (zs : List Slot) :
    form.onSlots (xs ++ (ys ++ zs)) = some (xs ++ (ys ++ (xs ++ zs))) := by
  cases form <;>
    simp only [shape, List.length_eq_zero_iff, List.length_eq_one_iff, List.length_eq_two] at copied skipped <;>
    grind [onSlots]

theorem PopForm.onSlots_append {form : PopForm} {xs : List Slot} (dropped : xs.length = form.count) (zs : List Slot) :
    form.onSlots (xs ++ zs) = some zs := by
  cases form <;> simp only [count, List.length_eq_one_iff, List.length_eq_two] at dropped <;> grind [onSlots]

/-- A copy by slots is one of whole values. -/
theorem Frame.dup_onValues (stack : f.stack = top ++ (under ++ rest)) (copied : (slotsOf top).length = form.shape.1)
    (skipped : (slotsOf under).length = form.shape.2) (room : f.Room top.length) :
    f.dup (form.onValues f) = .ok { f with stack := top ++ (under ++ (top ++ rest)) } := by
  have shape := DupForm.onValues_shape stack copied skipped
  rw [dup_eq_ok, shape, stack, dupStack_append]
  exact ⟨by simp only [List.length_append]; omega, room, rfl⟩

theorem Frame.popMany_onValues {form : PopForm} (stack : f.stack = top ++ rest)
    (dropped : (slotsOf top).length = form.count) : f.popMany (form.onValues f).count = .ok { f with stack := rest } := by
  rw [PopForm.onValues_count stack dropped, popMany, stack, List.length_append, if_neg (by omega), List.drop_left]

end Forms

/-- Copying takes no notice of what the values are: stacks that agree value by value still agree afterwards. -/
theorem dupStack_forall₂ {α β : Type} {agree : α → β → Prop} {xs : List α} {ys : List β} (same : List.Forall₂ agree xs ys)
    (count below : Nat) : List.Forall₂ agree (dupStack count below xs) (dupStack count below ys) :=
  List.rel_append (List.rel_append (List.forall₂_take _ same) (List.forall₂_take _ same)) (List.forall₂_drop _ same)

/-- On a stack that has the values and the room it takes, copying expressions keeps in step with copying symbolic
values. -/
theorem Scratch.dup_agrees {agree : StackValue → SymValue → Prop} {s : Scratch} {f : Frame}
    (same : List.Forall₂ agree s.stack f.stack) (enough : form.shape.1 + form.shape.2 ≤ f.stack.length)
    (room : f.Room form.shape.1) : ∃ s' f', s.dup form = .ok s' ∧ f.dup form = .ok f' ∧
      s' = { s with stack := s'.stack } ∧ f' = { f with stack := f'.stack } ∧ List.Forall₂ agree s'.stack f'.stack := by
  have fits : ¬ s.stack.length < form.shape.1 + form.shape.2 := by
    rw [same.length_eq]
    omega
  exact ⟨_, _, if_neg fits, Frame.dup_eq_ok.mpr ⟨enough, room, rfl⟩, rfl, rfl, dupStack_forall₂ same _ _⟩

/-- Forms of `dup` and `pop` that count slots are replaced by forms that count values without a change in what they
do: where the slots that they copy, skip or drop end with a value, the slots after the form that counts values are
those after the form that counts slots. And a form that counts values does to a stack of expressions what it does to
a stack of symbolic values. -/
theorem Frame.forms_act_on_slots (f : Frame) :
    (∀ (form : DupForm) (top under rest : List SymValue), f.stack = top ++ (under ++ rest) →
      (slotsOf top).length = form.shape.1 → (slotsOf under).length = form.shape.2 → f.Room top.length →
        ∃ f', f.dup (form.onValues f) = .ok f' ∧ f' = { f with stack := f'.stack } ∧
          form.onSlots (slotsOf f.stack) = some (slotsOf f'.stack)) ∧
    (∀ (form : PopForm) (top rest : List SymValue), f.stack = top ++ rest → (slotsOf top).length = form.count →
      ∃ f', f.popMany (form.onValues f).count = .ok f' ∧ f' = { f with stack := f'.stack } ∧
        form.onSlots (slotsOf f.stack) = some (slotsOf f'.stack)) ∧
    ∀ (form : DupForm) (s : Scratch) (agree : StackValue → SymValue → Prop), List.Forall₂ agree s.stack f.stack →
      form.shape.1 + form.shape.2 ≤ f.stack.length → f.Room form.shape.1 →
        ∃ s' f', s.dup form = .ok s' ∧ f.dup form = .ok f' ∧ s' = { s with stack := s'.stack } ∧
          f' = { f with stack := f'.stack } ∧ List.Forall₂ agree s'.stack f'.stack := by
  refine ⟨fun form top under rest stack copied skipped room => ?_, fun form top rest stack dropped => ?_,
    fun _ _ _ => Scratch.dup_agrees⟩
  · refine ⟨_, dup_onValues stack copied skipped room, rfl, ?_⟩
    simp only [stack, slotsOf_append]
    exact DupForm.onSlots_append copied skipped _
  · refine ⟨_, popMany_onValues stack dropped, rfl, ?_⟩
    simp only [stack, slotsOf_append]
    exact PopForm.onSlots_append dropped _

/-- A wide value above two narrow ones and another wide one; there is room for one more. -/
def Frame.mixed : Frame where
  regs := []
  stack := [⟨3, 3, .long, .defined⟩, ⟨2, 2, .int, .defined⟩, ⟨1, 1, .int, .defined⟩, ⟨0, 0, .double, .defined⟩]
  subs := []
  maxStack := 5

theorem Frame.forms_act_on_slots_mixed :
    (∃ f', mixed.dup (DupForm.dup2X2.onValues mixed) = .ok f' ∧ f' = { mixed with stack := f'.stack } ∧
      DupForm.dup2X2.onSlots (slotsOf mixed.stack) = some (slotsOf f'.stack)) ∧
    (∃ f', mixed.popMany (PopForm.pop2.onValues mixed).count = .ok f' ∧ f' = { mixed with stack := f'.stack } ∧
      PopForm.pop2.onSlots (slotsOf mixed.stack) = some (slotsOf f'.stack)) ∧
    ∃ s' f', (Scratch.mk [⟨3, .null⟩, ⟨2, .this⟩, ⟨1, .null⟩, ⟨0, .this⟩] [] 4).dup .dupX2 = .ok s' ∧
      mixed.dup .dupX2 = .ok f' ∧ s' = ⟨s'.stack, [], 4⟩ ∧ f' = { mixed with stack := f'.stack } ∧
      List.Forall₂ (fun copy value => copy.id = value.pc) s'.stack f'.stack := by
  obtain ⟨copies, drops, agrees⟩ := forms_act_on_slots mixed
  refine ⟨?_, ?_, ?_⟩
  · exact copies .dup2X2 [⟨3, 3, .long, .defined⟩] [⟨2, 2, .int, .defined⟩, ⟨1, 1, .int, .defined⟩]
      [⟨0, 0, .double, .defined⟩] rfl rfl rfl (.inr (by decide))
  · exact drops .pop2 [⟨3, 3, .long, .defined⟩] _ rfl rfl
  · exact agrees .dupX2 ⟨[⟨3, .null⟩, ⟨2, .this⟩, ⟨1, .null⟩, ⟨0, .this⟩], [], 4⟩ (fun copy value => copy.id = value.pc)
      (by simp [mixed]) (by decide) (.inr (by decide))

end Unstack
