import Unstack.Interchange.Method
import Unstack.Proofs.Interchange.Flags

namespace Unstack

variable {α β : Type}

theorem map_eq_some {f : α → β} {x : Option α} {b : β} : f <$> x = some b ↔ ∃ a, x = some a ∧ f a = b := by
  cases x <;> simp

theorem map_seq_eq_some {γ : Type} {f : α → β → γ} {x : Option α} {y : Option β} {c : γ} :
    f <$> x <*> y = some c ↔ ∃ a, x = some a ∧ ∃ b, y = some b ∧ f a b = c := by
  cases x <;> cases y <;> simp [Seq.seq]

theorem map_seq_seq_eq_some {γ δ : Type} {f : α → β → γ → δ} {x : Option α} {y : Option β} {z : Option γ} {d : δ} :
    f <$> x <*> y <*> z = some d ↔ ∃ a, x = some a ∧ ∃ b, y = some b ∧ ∃ c, z = some c ∧ f a b c = d := by
  cases x <;> cases y <;> cases z <;> simp [Seq.seq]

theorem forall_of_mapM {read : α → Option β} {good : β → Prop} (reads : ∀ a b, read a = some b → good b)
    {items : List α} {values : List β} (whole : items.mapM read = some values) : ∀ b ∈ values, good b := by
  induction items generalizing values with
  | nil =>
    cases whole
    simp
  | cons item rest ih =>
    rw [List.mapM_cons] at whole
    obtain ⟨value, first, whole⟩ := Option.bind_eq_some_iff.mp whole
    obtain ⟨others, later, whole⟩ := Option.bind_eq_some_iff.mp whole
    cases whole
    exact List.forall_mem_cons.mpr ⟨reads _ _ first, ih later⟩

namespace Json

variable {α : Type} {read : Json → Option α} {write : α → Json} {good : α → Prop} {j : Json} {name : String}
  {back : List (String × Json)}

/-- The values that can be read are the good ones, and these are read again from what is written for them. -/
structure Lawful (read : Json → Option α) (write : α → Json) (good : α → Prop) : Prop where
  reads (j : Json) (a : α) : read j = some a → good a
  returns (a : α) : good a → read (write a) = some a

namespace Lawful

theorem required (lawful : Lawful read write good) {a : α} (found : j.required name read = some a) : good a := by
  obtain ⟨value, _, there⟩ := Option.bind_eq_some_iff.mp found
  exact lawful.reads value a there

theorem defaulted (lawful : Lawful read write good) {default a : α} (initial : good default)
    (found : j.defaulted name default read = some a) : good a := by
  unfold Json.defaulted at found
  split at found
  · cases found
    exact initial
  · exact lawful.reads _ _ found

theorem optional (lawful : Lawful read write good) {a : Option α} (found : j.optional name read = some a) :
    ∀ b ∈ a, good b := by
  intro b same
  cases same
  unfold Json.optional at found
  split at found
  · cases found
  · cases found
  · obtain ⟨_, there, same⟩ := Option.map_eq_some_iff.mp found
    cases same
    exact lawful.reads _ _ there

/-- A list is read and written item by item. -/
theorem list (lawful : Lawful read write good) : Lawful (list? read) (ofList write) fun items => ∀ a ∈ items, good a where
  reads j items found := by
    obtain ⟨values, _, there⟩ := Option.bind_eq_some_iff.mp found
    exact forall_of_mapM lawful.reads there
  returns items all := by
    change (items.map write).mapM read = some items
    rw [List.mapM_map]
    exact (mapM_eq_some_map fun a member => lawful.returns a (all a member)).trans (by rw [List.map_id'])

end Lawful

theorem lookup_append (name : String) (front back : List (String × Json)) :
    lookup name (front ++ back) = (lookup name back).or (lookup name front) := by
  induction front with
  | nil => simp [lookup]
  | cons field front ih =>
    rw [List.cons_append, lookup, lookup, ih]
    cases lookup name back <;> simp

theorem lookup_back {front : List (String × Json)} {value : Json} (there : lookup name back = some value) :
    lookup name (front ++ back) = some value := by
  rw [lookup_append, there, Option.some_or]

theorem lookup_front (front : List (String × Json)) (apart : lookup name back = none) :
    lookup name (front ++ back) = lookup name front := by
  rw [lookup_append, apart, Option.none_or]

section Written

variable {fields : List (String × Json)} {a : α}

theorem Lawful.required_obj (lawful : Lawful read write good) (there : lookup name fields = some (write a))
    (isGood : good a) : (obj fields).required name read = some a :=
  Option.bind_eq_some_iff.mpr ⟨write a, there, lawful.returns a isGood⟩

theorem Lawful.defaulted_obj (lawful : Lawful read write good) {default : α}
    (there : lookup name fields = some (write a)) (isGood : good a) :
    (obj fields).defaulted name default read = some a := by
  rw [Json.defaulted, field?, there]
  exact lawful.returns a isGood

theorem defaulted_omitted {default : α} (omitted : lookup name fields = none) :
    (obj fields).defaulted name default read = some default := by
  rw [Json.defaulted, field?, omitted]

theorem Lawful.required_back (lawful : Lawful read write good) {front : List (String × Json)}
    (there : lookup name fields = some (write a)) (isGood : good a) :
    (obj (front ++ fields)).required name read = some a :=
  lawful.required_obj (lookup_back there) isGood

theorem Lawful.defaulted_back (lawful : Lawful read write good) {front : List (String × Json)} {default : α}
    (there : lookup name fields = some (write a)) (isGood : good a) :
    (obj (front ++ fields)).defaulted name default read = some a :=
  lawful.defaulted_obj (lookup_back there) isGood

theorem Lawful.optional_obj (lawful : Lawful read write good) (visible : ∀ b, write b ≠ null) {a : Option α}
    (there : lookup name fields = some (ofOption write a)) (isGood : ∀ b ∈ a, good b) :
    (obj fields).optional name read = some a := by
  rw [Json.optional, field?, there]
  cases a with
  | none => rfl
  | some b =>
    have back := lawful.returns b (isGood b rfl)
    simp only [ofOption]
    split
    · rename_i none
      cases none
    · rename_i none
      exact absurd (Option.some.inj none) (visible b)
    · rename_i same
      cases same
      rw [back, Option.map_some]

end Written

theorem lawful_bool : Lawful bool? bool fun _ => True := ⟨fun _ _ _ => trivial, fun _ _ => rfl⟩

theorem lawful_str : Lawful str? str fun _ => True := ⟨fun _ _ _ => trivial, fun _ _ => rfl⟩

theorem lawful_int (fits : Int → Bool) : Lawful (int? fits) int fun v => fits v = true where
  reads j v found := by
    cases j with
    | int v' =>
      simp only [int?] at found
      split at found
      · cases found
        assumption
      · cases found
    | _ => cases found
  returns v good := if_pos good

theorem lawful_int32 : Lawful int32? int fun v => fitsInt32 v = true := lawful_int fitsInt32

theorem lawful_int64 : Lawful int64? int fun v => fitsInt64 v = true := lawful_int fitsInt64

theorem lawful_nat : Lawful nat? ofNat fun n => fitsWord64 n = true where
  reads j n found := by
    obtain ⟨v, there, rfl⟩ := Option.map_eq_some_iff.mp found
    have fits := (lawful_int fitsWord64).reads j v there
    have positive : 0 ≤ v := by
      simp only [fitsWord64, Bool.and_eq_true, decide_eq_true_eq] at fits
      exact fits.1
    rwa [Int.toNat_of_nonneg positive]
  returns n good := by rw [nat?, ofNat, (lawful_int fitsWord64).returns _ good, Option.map_some, Int.toNat_natCast]

theorem lawful_int16 : Lawful int16? (fun w => ofNat w.toNat) fun _ => True where
  reads _ _ _ := trivial
  returns w _ := by
    have bound := w.toNat_lt
    have fits : fitsWord16 w.toNat = true := by
      simp only [fitsWord16, Bool.and_eq_true, decide_eq_true_eq]
      omega
    rw [int16?, ofNat, (lawful_int fitsWord16).returns _ fits, Option.map_some, Int.toNat_natCast, UInt16.ofNat_toNat]

/-- Names that tell the values apart. -/
theorem lawful_named {ofName? : String → Option α} {nameOf : α → String} (known : ∀ a, ofName? (nameOf a) = some a) :
    Lawful (named? ofName?) (fun a => str (nameOf a)) fun _ => True where
  reads _ _ _ := trivial
  returns a _ := known a

end Json

theorem JavaType.lawful : Json.Lawful ofJson? toJson Spelled where
  reads j t found := by
    obtain ⟨s, _, there⟩ := Option.bind_eq_some_iff.mp found
    cases read : ofText s with
    | error e =>
      rw [read] at there
      cases there
    | ok t' =>
      rw [read] at there
      cases there
      exact spelled_of_ofChars read
  returns t spelled := by
    change (ofText t.text).toOption = some t
    rw [spelled.ofText]
    rfl

theorem AccessFlags.lawful : Json.Lawful ofJson? toJson fun _ => True :=
  ⟨fun _ _ _ => trivial, fun flags _ => flags.ofText?_text⟩

theorem Relation.lawful : Json.Lawful (Json.named? ofName?) (fun r => .str r.name) fun _ => True :=
  Json.lawful_named fun r => by cases r <;> decide

theorem DupForm.lawful : Json.Lawful (Json.named? ofName?) (fun form => .str form.name) fun _ => True :=
  Json.lawful_named fun form => by cases form <;> decide

theorem PopForm.lawful : Json.Lawful (Json.named? ofName?) (fun form => .str form.name) fun _ => True :=
  Json.lawful_named fun form => by cases form <;> decide

theorem MonitorAction.lawful : Json.Lawful (Json.named? ofName?) (fun a => .str a.name) fun _ => True :=
  Json.lawful_named fun a => by cases a <;> decide

/-- The constant has a written form: integers are in the range of 64 bits, and types have a spelling. -/
def Literal.Writable : Literal → Prop
  | int v => fitsInt64 v = true
  | classOf t => t.Spelled
  | _ => True

theorem Literal.lawful : Json.Lawful ofJson? toJson Writable where
  reads j literal found := by
    cases j with
    | int v =>
      cases found
      split
      · assumption
      · exact trivial
    | obj fields =>
      obtain ⟨t, there, rfl⟩ := Option.map_eq_some_iff.mp found
      exact JavaType.lawful.required there
    | arr items => cases found
    | _ =>
      cases found
      exact trivial
  returns literal good := by
    cases literal with
    | int v => exact congrArg some (if_pos good)
    | classOf t => exact Option.map_eq_some_iff.mpr ⟨t, JavaType.lawful.returns t good, rfl⟩
    | _ => rfl

structure FieldRef.Writable (f : FieldRef) : Prop where
  owner : f.owner.Spelled
  type : f.type.Spelled

theorem FieldRef.lawful : Json.Lawful ofJson? toJson Writable where
  reads j f found := by
    obtain ⟨j, _, found⟩ := Option.bind_eq_some_iff.mp found
    obtain ⟨owner, atOwner, found⟩ := Option.bind_eq_some_iff.mp found
    obtain ⟨name, _, found⟩ := Option.bind_eq_some_iff.mp found
    obtain ⟨type, atType, found⟩ := Option.bind_eq_some_iff.mp found
    obtain ⟨flags, _, found⟩ := Option.bind_eq_some_iff.mp found
    cases found
    exact ⟨JavaType.lawful.required atOwner, JavaType.lawful.required atType⟩
  returns f good := by
    simp [ofJson?, toJson, Json.record, Json.required, Json.defaulted, Json.field?, Json.lookup, Json.str?,
      JavaType.lawful.returns _ good.owner, JavaType.lawful.returns _ good.type, AccessFlags.lawful.returns]

structure MethodRef.Writable (m : MethodRef) : Prop where
  owner : m.owner.Spelled
  params : ∀ t ∈ m.params, t.Spelled
  result : m.result.Spelled

theorem MethodRef.lawful : Json.Lawful ofJson? toJson Writable where
  reads j m found := by
    obtain ⟨j, _, found⟩ := Option.bind_eq_some_iff.mp found
    obtain ⟨owner, atOwner, found⟩ := Option.bind_eq_some_iff.mp found
    obtain ⟨name, _, found⟩ := Option.bind_eq_some_iff.mp found
    obtain ⟨params, atParams, found⟩ := Option.bind_eq_some_iff.mp found
    obtain ⟨result, atResult, found⟩ := Option.bind_eq_some_iff.mp found
    obtain ⟨flags, _, found⟩ := Option.bind_eq_some_iff.mp found
    cases found
    exact ⟨JavaType.lawful.required atOwner, JavaType.lawful.list.defaulted (by simp) atParams,
      JavaType.lawful.defaulted (show JavaType.void.Spelled from trivial) atResult⟩
  returns m good := by
    simp [ofJson?, toJson, Json.record, Json.required, Json.defaulted, Json.field?, Json.lookup, Json.str?,
      JavaType.lawful.returns _ good.owner, JavaType.lawful.list.returns _ good.params,
      JavaType.lawful.returns _ good.result, AccessFlags.lawful.returns]

/-- The operands have a written form: types have a spelling, and numbers are in the range that is read. -/
def Instr.Writable : Instr → Prop
  | arith _ t | neg t | arrayLoad t | arrayStore t | compare t | instanceOf t | create t | leave t => t.Spelled
  | cast source target => source.Spelled ∧ target.Spelled
  | fillArray values => ∀ v ∈ values, v.Writable
  | get field | put field => field.Writable
  | goto n | enterSub n | leaveSub n => fitsWord64 n = true
  | inc t reg amount => t.Spelled ∧ fitsWord64 reg = true ∧ fitsInt64 amount = true
  | invoke method _ => method.Writable
  | jumpCompare t _ n | jumpZero t _ n | load t n | store t n | createArray t n => t.Spelled ∧ fitsWord64 n = true
  | push t value => t.Spelled ∧ value.Writable
  | switch keys targets fallback =>
    (∀ k ∈ keys, fitsInt32 k = true) ∧ (∀ n ∈ targets, fitsWord64 (n : Nat) = true) ∧ fitsWord64 fallback = true
  | arrayLength | dup _ | pop _ | swap | monitor _ | raise => True

/-- What is read fits the ranges that writing asks for. -/
theorem Instr.writable_of_ofOperands? {name : String} {j : Json} {i : Instr} (read : ofOperands? name j = some i) :
    i.Writable := by
  have type {name : String} {t : JavaType} := @Json.Lawful.required _ _ _ _ j name JavaType.lawful t
  have nat {name : String} {n : Nat} := @Json.Lawful.required _ _ _ _ j name Json.lawful_nat n
  have dims {name : String} {n : Nat} := @Json.Lawful.defaulted _ _ _ _ j name Json.lawful_nat 1 n (by decide)
  have amount {name : String} {v : Int} := @Json.Lawful.required _ _ _ _ j name Json.lawful_int64 v
  have literal {name : String} {v : Literal} := @Json.Lawful.required _ _ _ _ j name Literal.lawful v
  have literals {name : String} {vs : List Literal} := @Json.Lawful.required _ _ _ _ j name Literal.lawful.list vs
  have field {name : String} {f : FieldRef} := @Json.Lawful.required _ _ _ _ j name FieldRef.lawful f
  have method {name : String} {m : MethodRef} := @Json.Lawful.required _ _ _ _ j name MethodRef.lawful m
  have keys {name : String} {ks : List Int} := @Json.Lawful.required _ _ _ _ j name Json.lawful_int32.list ks
  have targets {name : String} {ns : List Nat} := @Json.Lawful.required _ _ _ _ j name Json.lawful_nat.list ns
  unfold ofOperands? at read
  simp only at read
  split at read <;>
    simp only [map_seq_seq_eq_some, map_seq_eq_some, map_eq_some, Option.some.injEq, Option.bind_eq_bind,
      Option.bind_eq_some_iff, reduceCtorEq] at read
  all_goals grind only [Writable]

/-- Operands are read back whatever stands in front of them. -/
theorem Instr.ofOperands?_operands {i : Instr} (good : i.Writable) (front : List (String × Json)) :
    ofOperands? i.name (.obj (front ++ i.operands)) = some i := by
  have type {name : String} {t : JavaType} :=
    @Json.Lawful.required_back _ _ _ _ name i.operands t JavaType.lawful front
  have nat {name : String} {n : Nat} := @Json.Lawful.required_back _ _ _ _ name i.operands n Json.lawful_nat front
  cases i with
  | arith op t =>
    cases op with
    | shr | ushr =>
      refine Option.bind_eq_some_iff.mpr ⟨_, Json.lawful_bool.defaulted_back rfl trivial, ?_⟩
      exact map_eq_some.mpr ⟨t, type rfl good, rfl⟩
    | _ => exact map_eq_some.mpr ⟨t, type rfl good, rfl⟩
  | neg t => exact map_eq_some.mpr ⟨t, type rfl good, rfl⟩
  | arrayLoad t => exact map_eq_some.mpr ⟨t, type rfl good, rfl⟩
  | arrayStore t => exact map_eq_some.mpr ⟨t, type rfl good, rfl⟩
  | compare t => exact map_eq_some.mpr ⟨t, type rfl good, rfl⟩
  | instanceOf t => exact map_eq_some.mpr ⟨t, type rfl good, rfl⟩
  | create t => exact map_eq_some.mpr ⟨t, type rfl good, rfl⟩
  | leave t => exact map_eq_some.mpr ⟨t, type rfl good, rfl⟩
  | arrayLength | swap | raise => rfl
  | cast source target => exact map_seq_eq_some.mpr ⟨source, type rfl good.1, target, type rfl good.2, rfl⟩
  | dup form => exact map_eq_some.mpr ⟨form, DupForm.lawful.required_back rfl trivial, rfl⟩
  | pop form => exact map_eq_some.mpr ⟨form, PopForm.lawful.required_back rfl trivial, rfl⟩
  | monitor action => exact map_eq_some.mpr ⟨action, MonitorAction.lawful.required_back rfl trivial, rfl⟩
  | fillArray values => exact map_eq_some.mpr ⟨values, Literal.lawful.list.required_back rfl good, rfl⟩
  | get field => exact map_eq_some.mpr ⟨field, FieldRef.lawful.required_back rfl good, rfl⟩
  | put field => exact map_eq_some.mpr ⟨field, FieldRef.lawful.required_back rfl good, rfl⟩
  | goto target => exact map_eq_some.mpr ⟨target, nat rfl good, rfl⟩
  | enterSub target => exact map_eq_some.mpr ⟨target, nat rfl good, rfl⟩
  | leaveSub reg => exact map_eq_some.mpr ⟨reg, nat rfl good, rfl⟩
  | inc t reg amount =>
    exact map_seq_seq_eq_some.mpr ⟨t, type rfl good.1, reg, nat rfl good.2.1, amount,
      Json.lawful_int64.required_back rfl good.2.2, rfl⟩
  | invoke method direct =>
    exact map_seq_eq_some.mpr ⟨method, MethodRef.lawful.required_back rfl good, direct,
      Json.lawful_bool.defaulted_back rfl trivial, rfl⟩
  | jumpCompare t relation target =>
    exact map_seq_seq_eq_some.mpr ⟨t, type rfl good.1, relation, Relation.lawful.required_back rfl trivial, target,
      nat rfl good.2, rfl⟩
  | jumpZero t relation target =>
    exact map_seq_seq_eq_some.mpr ⟨t, type rfl good.1, relation, Relation.lawful.required_back rfl trivial, target,
      nat rfl good.2, rfl⟩
  | load t reg => exact map_seq_eq_some.mpr ⟨t, type rfl good.1, reg, nat rfl good.2, rfl⟩
  | store t reg => exact map_seq_eq_some.mpr ⟨t, type rfl good.1, reg, nat rfl good.2, rfl⟩
  | createArray t dims =>
    exact map_seq_eq_some.mpr ⟨t, type rfl good.1, dims, Json.lawful_nat.defaulted_back rfl good.2, rfl⟩
  | push t value =>
    exact map_seq_eq_some.mpr ⟨t, type rfl good.1, value, Literal.lawful.required_back rfl good.2, rfl⟩
  | switch keys targets fallback =>
    exact map_seq_seq_eq_some.mpr ⟨keys, Json.lawful_int32.list.required_back rfl good.1, targets,
      Json.lawful_nat.list.required_back rfl good.2.1, fallback, nat rfl good.2.2, rfl⟩

/-- No operand has the name of another field of an operation. -/
theorem Instr.lookup_operands (i : Instr) :
    ∀ name ∈ ["pc", "opcode", "line", "op"], Json.lookup name i.operands = none := by
  cases i with
  | arith op t => cases op <;> simp [operands, Json.lookup]
  | _ => simp [operands, Json.lookup]

theorem Instr.lookup_header (i : Instr) {name : String} (member : name ∈ ["pc", "opcode", "line", "op"])
    (front : List (String × Json)) : Json.lookup name (front ++ i.operands) = Json.lookup name front :=
  Json.lookup_front front (i.lookup_operands name member)

structure Operation.Writable (o : Operation) : Prop where
  pc : fitsWord64 o.pc = true
  line : fitsInt32 o.line = true
  instr : o.instr.Writable

theorem Operation.lawful : Json.Lawful ofJson? toJson Writable where
  reads j o found := by
    obtain ⟨pc, atPc, found⟩ := Option.bind_eq_some_iff.mp found
    obtain ⟨opcode, _, found⟩ := Option.bind_eq_some_iff.mp found
    obtain ⟨line, atLine, found⟩ := Option.bind_eq_some_iff.mp found
    obtain ⟨name, _, found⟩ := Option.bind_eq_some_iff.mp found
    obtain ⟨instr, operands, found⟩ := Option.bind_eq_some_iff.mp found
    cases found
    exact ⟨Json.lawful_nat.required atPc, Json.lawful_int32.defaulted (by decide) atLine,
      Instr.writable_of_ofOperands? operands⟩
  returns o good := by
    refine Option.bind_eq_some_iff.mpr ⟨o.pc, Json.lawful_nat.required_obj (o.instr.lookup_header (by simp) _) good.pc, ?_⟩
    refine Option.bind_eq_some_iff.mpr ⟨o.opcode, Json.lawful_int16.defaulted_obj (o.instr.lookup_header (by simp) _) trivial, ?_⟩
    refine Option.bind_eq_some_iff.mpr ⟨o.line, Json.lawful_int32.defaulted_obj (o.instr.lookup_header (by simp) _) good.line, ?_⟩
    refine Option.bind_eq_some_iff.mpr ⟨o.instr.name, Json.lawful_str.required_obj (o.instr.lookup_header (by simp) _) trivial, ?_⟩
    exact Option.bind_eq_some_iff.mpr ⟨o.instr, Instr.ofOperands?_operands good.instr _, rfl⟩

/-- An operation of which only the position and the instruction are given has the code zero and no line. -/
theorem Operation.ofJson?_brief {pc : Nat} {i : Instr} (fits : fitsWord64 pc = true) (good : i.Writable) :
    ofJson? (.obj ([("pc", .ofNat pc), ("op", .str i.name)] ++ i.operands)) = some ⟨pc, 0, -1, i⟩ := by
  refine Option.bind_eq_some_iff.mpr ⟨pc, Json.lawful_nat.required_obj (i.lookup_header (by simp) _) fits, ?_⟩
  refine Option.bind_eq_some_iff.mpr ⟨0, Json.defaulted_omitted (i.lookup_header (by simp) _), ?_⟩
  refine Option.bind_eq_some_iff.mpr ⟨-1, Json.defaulted_omitted (i.lookup_header (by simp) _), ?_⟩
  refine Option.bind_eq_some_iff.mpr ⟨i.name, Json.lawful_str.required_obj (i.lookup_header (by simp) _) trivial, ?_⟩
  exact Option.bind_eq_some_iff.mpr ⟨i, Instr.ofOperands?_operands good _, rfl⟩

structure LocalVar.Writable (v : LocalVar) : Prop where
  reg : fitsWord64 v.reg = true
  type : v.type.Spelled
  startPc : fitsWord64 v.startPc = true
  endPc : fitsWord64 v.endPc = true

theorem LocalVar.lawful : Json.Lawful ofJson? toJson Writable where
  reads j v found := by
    obtain ⟨j, _, found⟩ := Option.bind_eq_some_iff.mp found
    obtain ⟨reg, atReg, found⟩ := Option.bind_eq_some_iff.mp found
    obtain ⟨name, _, found⟩ := Option.bind_eq_some_iff.mp found
    obtain ⟨type, atType, found⟩ := Option.bind_eq_some_iff.mp found
    obtain ⟨startPc, atStart, found⟩ := Option.bind_eq_some_iff.mp found
    obtain ⟨endPc, atEnd, found⟩ := Option.bind_eq_some_iff.mp found
    cases found
    exact ⟨Json.lawful_nat.required atReg, JavaType.lawful.required atType, Json.lawful_nat.required atStart,
      Json.lawful_nat.required atEnd⟩
  returns v good := by
    simp [ofJson?, toJson, Json.record, Json.required, Json.field?, Json.lookup, Json.str?,
      Json.lawful_nat.returns _ good.reg, JavaType.lawful.returns _ good.type, Json.lawful_nat.returns _ good.startPc,
      Json.lawful_nat.returns _ good.endPc]

structure ExceptionRange.Writable (r : ExceptionRange) : Prop where
  startPc : fitsWord64 r.startPc = true
  endPc : fitsWord64 r.endPc = true
  handlerPc : fitsWord64 r.handlerPc = true
  catchType : ∀ t ∈ r.catchType, t.Spelled

theorem ExceptionRange.lawful : Json.Lawful ofJson? toJson Writable where
  reads j r found := by
    obtain ⟨j, _, found⟩ := Option.bind_eq_some_iff.mp found
    obtain ⟨startPc, atStart, found⟩ := Option.bind_eq_some_iff.mp found
    obtain ⟨endPc, atEnd, found⟩ := Option.bind_eq_some_iff.mp found
    obtain ⟨handlerPc, atHandler, found⟩ := Option.bind_eq_some_iff.mp found
    obtain ⟨catchType, atType, found⟩ := Option.bind_eq_some_iff.mp found
    cases found
    exact ⟨Json.lawful_nat.required atStart, Json.lawful_nat.required atEnd, Json.lawful_nat.required atHandler,
      JavaType.lawful.optional atType⟩
  returns r good := by
    refine Option.bind_eq_some_iff.mpr ⟨r.startPc, Json.lawful_nat.required_obj rfl good.startPc, ?_⟩
    refine Option.bind_eq_some_iff.mpr ⟨r.endPc, Json.lawful_nat.required_obj rfl good.endPc, ?_⟩
    refine Option.bind_eq_some_iff.mpr ⟨r.handlerPc, Json.lawful_nat.required_obj rfl good.handlerPc, ?_⟩
    have visible (t : JavaType) : t.toJson ≠ .null := by simp [JavaType.toJson]
    exact Option.bind_eq_some_iff.mpr
      ⟨r.catchType, JavaType.lawful.optional_obj visible rfl good.catchType, rfl⟩

structure MethodInfo.Writable (m : MethodInfo) : Prop where
  owner : m.owner.Spelled
  regs : fitsWord64 m.regs = true
  maxStack : fitsWord64 m.maxStack = true
  params : ∀ t ∈ m.params, t.Spelled
  result : m.result.Spelled
  locals : ∀ v ∈ m.locals, v.Writable

theorem MethodInfo.spelled_unknownOwner : unknownOwner.Spelled := JavaType.lawful.reads (.str "Unknown") _ (by decide +kernel)

theorem MethodInfo.lawful : Json.Lawful ofJson? toJson Writable where
  reads j m found := by
    obtain ⟨j, _, found⟩ := Option.bind_eq_some_iff.mp found
    obtain ⟨name, _, found⟩ := Option.bind_eq_some_iff.mp found
    obtain ⟨owner, atOwner, found⟩ := Option.bind_eq_some_iff.mp found
    obtain ⟨regs, atRegs, found⟩ := Option.bind_eq_some_iff.mp found
    obtain ⟨maxStack, atStack, found⟩ := Option.bind_eq_some_iff.mp found
    obtain ⟨isStatic, _, found⟩ := Option.bind_eq_some_iff.mp found
    obtain ⟨params, atParams, found⟩ := Option.bind_eq_some_iff.mp found
    obtain ⟨result, atResult, found⟩ := Option.bind_eq_some_iff.mp found
    obtain ⟨locals, atLocals, found⟩ := Option.bind_eq_some_iff.mp found
    cases found
    exact ⟨JavaType.lawful.defaulted spelled_unknownOwner atOwner, Json.lawful_nat.required atRegs,
      Json.lawful_nat.defaulted (by decide) atStack, JavaType.lawful.list.defaulted (by simp) atParams,
      JavaType.lawful.defaulted (show JavaType.void.Spelled from trivial) atResult,
      LocalVar.lawful.list.defaulted (by simp) atLocals⟩
  returns m good := by
    simp [ofJson?, toJson, Json.record, Json.required, Json.defaulted, Json.field?, Json.lookup, Json.str?, Json.bool?,
      JavaType.lawful.returns _ good.owner, Json.lawful_nat.returns _ good.regs,
      Json.lawful_nat.returns _ good.maxStack, JavaType.lawful.list.returns _ good.params,
      JavaType.lawful.returns _ good.result, LocalVar.lawful.list.returns _ good.locals]

structure MethodInput.Writable (m : MethodInput) : Prop where
  info : m.info.Writable
  ops : ∀ o ∈ m.ops, o.Writable
  exceptions : ∀ r ∈ m.exceptions, r.Writable

theorem MethodInput.lawful : Json.Lawful ofJson? toJson Writable where
  reads j m found := by
    obtain ⟨j, _, found⟩ := Option.bind_eq_some_iff.mp found
    obtain ⟨info, atInfo, found⟩ := Option.bind_eq_some_iff.mp found
    obtain ⟨ops, atOps, found⟩ := Option.bind_eq_some_iff.mp found
    obtain ⟨exceptions, atExceptions, found⟩ := Option.bind_eq_some_iff.mp found
    cases found
    exact ⟨MethodInfo.lawful.required atInfo, Operation.lawful.list.required atOps,
      ExceptionRange.lawful.list.defaulted (by simp) atExceptions⟩
  returns m good := by
    simp [ofJson?, toJson, Json.record, Json.required, Json.defaulted, Json.field?, Json.lookup,
      MethodInfo.lawful.returns _ good.info, Operation.lawful.list.returns _ good.ops,
      ExceptionRange.lawful.list.returns _ good.exceptions]

/-- A method of which only the name, the number of registers and the operations are given has the defaults for
everything else. -/
theorem MethodInput.ofJson?_brief {name : String} {regs : Nat} {j : Json} {ops : List Operation}
    (fits : fitsWord64 regs = true) (read : Json.list? Operation.ofJson? j = some ops) :
    ofJson? (.obj [("info", .obj [("name", .str name), ("regs", .ofNat regs)]), ("ops", j)]) =
      some ⟨{ MethodInfo.plain name regs 0 with isStatic := false }, ops, []⟩ := by
  simp [ofJson?, MethodInfo.ofJson?, MethodInfo.plain, Json.record, Json.required, Json.defaulted, Json.field?,
    Json.lookup, Json.str?, Json.lawful_nat.returns _ fits, read]

/-- A method that has been read is read again from what is written for it, with nothing lost or changed. -/
theorem MethodInput.toJson_restores {j : Json} {m : MethodInput} (read : ofJson? j = some m) :
    ofJson? m.toJson = some m :=
  lawful.returns m (lawful.reads j m read)

/-- A method with much left out: the description comes without names, a type with blanks and slashes, flags as
names and as bits. -/
def MethodInput.terse : Json :=
  .obj [("info", .arr [.str "f", .str "a/B", .int 2]),
    ("ops", .arr [
      .obj [("op", .str "Push"), ("pc", .int 0), ("t", .str "java.lang.Class"),
        ("value", .obj [("class", .str " a/C [] ")])],
      .obj [("op", .str "Invoke"), ("pc", .int 1),
        ("method", .obj [("owner", .str "a.B"), ("name", .str "g"), ("flags", .str "0x20|STATIC")])],
      .obj [("op", .str "Return"), ("pc", .int 2), ("t", .str "void")]])]

/-- What `terse` stands for, with nothing left out. -/
def MethodInput.spelledOut : MethodInput where
  info := { MethodInfo.plain "f" 2 0 with owner := .object "a.B", isStatic := false }
  ops := [⟨0, 0, -1, .push (.object "java.lang.Class") (.classOf (.array (.object "a.C")))⟩,
    ⟨1, 0, -1, .invoke ⟨.object "a.B", "g", [], .void, ⟨0x28⟩⟩ false⟩, ⟨2, 0, -1, .leave .void⟩]
  exceptions := []

theorem MethodInput.toJson_restores_terse : ofJson? terse = some spelledOut ∧
    ofJson? spelledOut.toJson = some spelledOut := by
  have read : ofJson? terse = some spelledOut := by with_unfolding_all rfl
  exact ⟨read, toJson_restores read⟩

end Unstack
