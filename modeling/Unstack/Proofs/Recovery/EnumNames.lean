import Mathlib.Data.List.Basic
import Unstack.Recovery.SwitchLabel

namespace Unstack

variable {enumType : JavaType} {ops : List Operation} {names : List (Int × String)} {pos : Nat} {index : Int}
  {name : String}

/-- From `pos` on, four operations in a row put the constant `name` under `index`: its field is read, `ordinal` of the
enum is called without arguments, the index is pushed, and an element of an array is stored. -/
def Assigns (enumType : JavaType) (ops : List Operation) (pos : Nat) (index : Int) (name : String) : Prop :=
  ∃ field method direct t elem,
    ((ops.drop pos).take 4).map Operation.instr =
      [.get field, .invoke method direct, .push t (.int index), .arrayStore elem] ∧
    field.type = enumType ∧ field.name = name ∧ method.owner = enumType ∧ method.name = "ordinal" ∧ method.params = []

theorem assigns_cons_iff {o : Operation} :
    Assigns enumType (o :: ops) (pos + 1) index name ↔ Assigns enumType ops pos index name := .rfl

theorem not_assigns_nil : ¬ Assigns enumType [] pos index name := by
  rintro ⟨_, _, _, _, _, window, _⟩
  simp at window

/-- The first operation of an assignment reads a field, and the next three do not. -/
theorem Assigns.instr_at (assigns : Assigns enumType ops pos index name) :
    (∃ field, ops[pos]?.map Operation.instr = some (.get field)) ∧
      ∀ k, 0 < k → k < 4 → ∀ field, ops[pos + k]?.map Operation.instr ≠ some (.get field) := by
  obtain ⟨field, method, direct, t, elem, window, _⟩ := assigns
  have inside (k : Nat) (small : k < 4) : ops[pos + k]?.map Operation.instr =
      [Instr.get field, .invoke method direct, .push t (.int index), .arrayStore elem][k]? := by
    rw [← window, List.getElem?_map, List.getElem?_take_of_lt small, List.getElem?_drop]
  refine ⟨⟨field, inside 0 (by decide)⟩, fun k positive small => ?_⟩
  rw [inside k small]
  obtain rfl | rfl | rfl : k = 1 ∨ k = 2 ∨ k = 3 := by omega
  all_goals simp

/-- Two assignments have no operation in common. -/
theorem Assigns.apart {pos' : Nat} {index' : Int} {name' : String} (assigns : Assigns enumType ops pos index name)
    (assigns' : Assigns enumType ops pos' index' name') (before : pos < pos') : pos + 4 ≤ pos' := by
  by_contra overlap
  obtain ⟨field, reads⟩ := assigns'.instr_at.1
  refine assigns.instr_at.2 (pos' - pos) (by omega) (by omega) field ?_
  rwa [show pos + (pos' - pos) = pos' by omega]

theorem mapCell?_eq_some_iff {entry : Option (Int × String)} : mapCell? enumType ops = some entry ↔
    ∃ index name, Assigns enumType ops 0 index name ∧ entry = if fitsInt32 index then some (index, name) else none := by
  constructor
  · intro found
    unfold mapCell? at found
    split at found
    · split at found
      · split at found
        · rename_i field method direct t index elem reads calls pushes stores fits
          simp only [Bool.and_eq_true, decide_eq_true_eq, List.isEmpty_iff] at fits
          obtain ⟨⟨⟨type, owner⟩, ordinal⟩, params⟩ := fits
          refine ⟨index, field.name, ⟨field, method, direct, t, elem, ?_, type, rfl, owner, ordinal, params⟩,
            (Option.some.inj found).symm⟩
          simp [reads, calls, pushes, stores]
        · cases found
      · cases found
    · cases found
  · rintro ⟨index, name, ⟨field, method, direct, t, elem, window, type, rfl, owner, ordinal, params⟩, rfl⟩
    rcases ops with _ | ⟨a, _ | ⟨b, _ | ⟨c, _ | ⟨d, rest⟩⟩⟩⟩ <;> simp at window
    simp [mapCell?, window, type, owner, ordinal, params]

/-- What is put under the index by the first four operations. -/
def firstName? (enumType : JavaType) (index : Int) (ops : List Operation) : Option String :=
  (mapCell? enumType ops).join.bind fun entry => if entry.1 = index then some entry.2 else none

theorem firstName?_eq_some_iff : firstName? enumType index ops = some name ↔
    fitsInt32 index = true ∧ Assigns enumType ops 0 index name := by
  simp only [firstName?, Option.bind_eq_some_iff, Option.join_eq_some_iff, mapCell?_eq_some_iff]
  constructor
  · rintro ⟨entry, ⟨index', name', assigns, same⟩, here⟩
    split at same <;> cases same
    split at here <;> cases here
    subst index
    exact ⟨‹_›, assigns⟩
  · rintro ⟨fits, assigns⟩
    exact ⟨_, ⟨index, name, assigns, (if_pos fits).symm⟩, if_pos rfl⟩

/-- The constant that is put under the index last, where every operation is tried as the first of four. -/
def lastName? (enumType : JavaType) (index : Int) : List Operation → Option String
  | [] => none
  | o :: rest => (lastName? enumType index rest).or (firstName? enumType index (o :: rest))

theorem lastName?_eq_none_iff (fits : fitsInt32 index = true) :
    lastName? enumType index ops = none ↔ ∀ pos name, ¬ Assigns enumType ops pos index name := by
  induction ops with
  | nil => exact iff_of_true rfl fun _ _ => not_assigns_nil
  | cons o rest ih =>
    rw [lastName?, Option.or_eq_none_iff, ih, Option.eq_none_iff_forall_ne_some]
    simp only [ne_eq, firstName?_eq_some_iff, fits, true_and]
    constructor
    · rintro ⟨later, first⟩ (_ | pos) name
      · exact first name
      · exact later pos name
    · exact fun none => ⟨fun pos => none (pos + 1), none 0⟩

theorem lastName?_eq_some_iff : lastName? enumType index ops = some name ↔ fitsInt32 index = true ∧
    ∃ pos, Assigns enumType ops pos index name ∧
      ∀ later, pos < later → ∀ other, ¬ Assigns enumType ops later index other := by
  induction ops with
  | nil => simp [lastName?, not_assigns_nil]
  | cons o rest ih =>
    rw [lastName?, Option.or_eq_some_iff, ih, firstName?_eq_some_iff]
    constructor
    · rintro (⟨fits, pos, assigns, last⟩ | ⟨none, fits, assigns⟩)
      · refine ⟨fits, pos + 1, assigns, ?_⟩
        rintro (_ | later) after other
        · cases after
        · exact last later (by omega) other
      · refine ⟨fits, 0, assigns, ?_⟩
        rintro (_ | later) after other
        · cases after
        · exact (lastName?_eq_none_iff fits).mp none later other
    · rintro ⟨fits, _ | pos, assigns, last⟩
      · exact .inr ⟨(lastName?_eq_none_iff fits).mpr fun pos => last (pos + 1) (by omega), fits, assigns⟩
      · exact .inl ⟨fits, pos, assigns, fun later after => last (later + 1) (by omega)⟩

/-- Operations at which no assignment starts can be left out. -/
theorem lastName?_drop {count : Nat} (none : ∀ pos < count, ∀ index name, ¬ Assigns enumType ops pos index name) :
    lastName? enumType index (ops.drop count) = lastName? enumType index ops := by
  induction count generalizing ops with
  | zero => rfl
  | succ count ih =>
    cases ops with
    | nil => rfl
    | cons o rest =>
      have first : firstName? enumType index (o :: rest) = Option.none := by
        rw [Option.eq_none_iff_forall_ne_some]
        intro name found
        exact none 0 (by omega) index name (firstName?_eq_some_iff.mp found).2
      rw [List.drop_succ_cons, ih fun pos small => none (pos + 1) (by omega), lastName?, first, Option.or_none]

theorem lookup_cons_if (i : Int) (rest : List (Int × String)) (other : Int) :
    ((i, name) :: rest).lookup other = if other = i then some name else rest.lookup other := by
  by_cases same : other = i
  · simp [same]
  · rw [List.lookup_cons, beq_false_of_ne same, if_neg same]

theorem lookup_insertName (other : Int) :
    (insertName index name names).lookup other = if other = index then some name else names.lookup other := by
  induction names with
  | nil => rw [insertName, lookup_cons_if]
  | cons entry rest ih =>
    obtain ⟨i, n⟩ := entry
    unfold insertName
    split_ifs <;> simp only [lookup_cons_if, ih] <;> grind

/-- The last assignment of an index counts. -/
theorem lookup_enumNames {fuel : Nat} (enough : ops.length ≤ fuel) :
    (enumNames enumType fuel names ops).lookup index = (lastName? enumType index ops).or (names.lookup index) := by
  induction fuel generalizing names ops with
  | zero =>
    cases List.length_eq_zero_iff.mp (Nat.le_zero.mp enough)
    rfl
  | succ fuel ih =>
    cases ops with
    | nil => rfl
    | cons o rest =>
      rw [List.length_cons, Nat.succ_le_succ_iff] at enough
      rw [enumNames, lastName?, firstName?]
      cases found : mapCell? enumType (o :: rest) with
      | none => simp only [ih enough, Option.join_none, Option.bind_none, Option.or_none]
      | some entry =>
        obtain ⟨_, _, assigns, _⟩ := mapCell?_eq_some_iff.mp found
        -- nothing is missed by leaving out the other three operations as well
        have skipped : lastName? enumType index (rest.drop 3) = lastName? enumType index rest := by
          refine lastName?_drop fun pos small index name assigns' => ?_
          have := assigns.apart (assigns_cons_iff.mpr assigns') (by omega)
          omega
        simp only [ih (show (rest.drop 3).length ≤ fuel by rw [List.length_drop]; omega), skipped, Option.or_assoc]
        congr 1
        cases entry with
        | none => rfl
        | some entry =>
          simp only [lookup_insertName, Option.join_some, Option.bind_some]
          by_cases same : index = entry.1
          · simp [same]
          · simp [same, Ne.symm same]

theorem mem_insertName {entry : Int × String} (member : entry ∈ insertName index name names) :
    entry = (index, name) ∨ entry ∈ names := by
  induction names with
  | nil => exact .inl (List.mem_singleton.mp member)
  | cons first rest ih =>
    unfold insertName at member
    split_ifs at member <;> grind

theorem pairwise_insertName (ascending : names.Pairwise fun a b => a.1 < b.1) :
    (insertName index name names).Pairwise fun a b => a.1 < b.1 := by
  induction names with
  | nil => exact List.pairwise_singleton _ _
  | cons first rest ih =>
    obtain ⟨above, ascending⟩ := List.pairwise_cons.mp ascending
    unfold insertName
    split_ifs with before same
    · refine List.pairwise_cons.mpr ⟨?_, List.pairwise_cons.mpr ⟨above, ascending⟩⟩
      rintro entry (_ | ⟨_, member⟩)
      · exact before
      · exact Int.lt_trans before (above entry member)
    · exact List.pairwise_cons.mpr ⟨same ▸ above, ascending⟩
    · refine List.pairwise_cons.mpr ⟨fun entry member => ?_, ih ascending⟩
      rcases mem_insertName member with rfl | old
      · grind
      · exact above entry old

theorem pairwise_enumNames {fuel : Nat} (ascending : names.Pairwise fun a b => a.1 < b.1) :
    (enumNames enumType fuel names ops).Pairwise fun a b => a.1 < b.1 := by
  induction fuel generalizing names ops with
  | zero => exact ascending
  | succ fuel ih =>
    cases ops with
    | nil => exact ascending
    | cons o rest =>
      rw [enumNames]
      split
      · refine ih ?_
        split
        · exact pairwise_insertName ascending
        · exact ascending
      · exact ih ascending

/-- The map is in ascending order and holds, under each index of 32 bits, the constant that is put there last. No
assignment is missed, since the next one starts behind the four operations that are skipped. -/
theorem extractEnumNames_last (ops : List Operation) (enumType : JavaType) :
    ((extractEnumNames ops enumType).Pairwise fun a b => a.1 < b.1) ∧
    (∀ index name, (extractEnumNames ops enumType).lookup index = some name ↔ fitsInt32 index = true ∧
      ∃ pos, Assigns enumType ops pos index name ∧
        ∀ later, pos < later → ∀ other, ¬ Assigns enumType ops later index other) ∧
    ∀ pos pos' index index' name name', Assigns enumType ops pos index name → Assigns enumType ops pos' index' name' →
      pos < pos' → pos + 4 ≤ pos' := by
  refine ⟨pairwise_enumNames .nil, fun index name => ?_, fun _ _ _ _ _ _ assigns => assigns.apart⟩
  rw [extractEnumNames, lookup_enumNames (Nat.le_refl _), List.lookup_nil, Option.or_none, lastName?_eq_some_iff]

end Unstack
