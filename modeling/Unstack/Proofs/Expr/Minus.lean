import Unstack.Proofs.Expr.Grammar

namespace Unstack

variable {c : Char}

namespace Text

/-- The character never stands twice in a row. -/
def Sparse (c : Char) (cs : List Char) : Prop := cs.IsChain fun a b => ¬ (a = c ∧ b = c)

section Sparse

variable {c : Char} {xs ys : List Char} {a : Char}

theorem sparse_iff : Sparse c xs ↔ ¬ [c, c] <:+: xs := by
  unfold Sparse
  rw [List.isChain_iff_forall_rel_of_append_cons_cons]
  constructor
  · rintro single ⟨front, behind, whole⟩
    exact @single c c front behind (by simpa using whole.symm) ⟨rfl, rfl⟩
  · rintro none a b front behind whole ⟨rfl, rfl⟩
    exact none ⟨front, behind, by simpa using whole.symm⟩

theorem sparse_of_notMem (absent : c ∉ xs) : Sparse c xs := by
  rw [sparse_iff]
  rintro ⟨front, behind, rfl⟩
  simp at absent

@[simp] theorem sparse_nil : Sparse c [] := .nil

theorem sparse_cons : Sparse c (a :: xs) ↔ ¬ (a = c ∧ xs.head? = some c) ∧ Sparse c xs := by
  unfold Sparse
  cases xs <;> simp

theorem sparse_cons_of_ne (other : a ≠ c) : Sparse c (a :: xs) ↔ Sparse c xs := by
  simp [sparse_cons, other]

/-- A different character keeps the signs at both sides apart. -/
theorem sparse_append_cons_of_ne (other : a ≠ c) : Sparse c (xs ++ a :: ys) ↔ Sparse c xs ∧ Sparse c ys := by
  rw [← @sparse_cons_of_ne c ys a other]
  unfold Sparse
  rw [List.isChain_append]
  constructor
  · rintro ⟨left, right, _⟩
    exact ⟨left, right⟩
  · rintro ⟨left, right⟩
    refine ⟨left, right, fun x _ y head both => other ?_⟩
    cases head
    exact both.2

theorem head?_append_cons_of_ne (other : a ≠ c) : (xs ++ a :: ys).head? = some c ↔ xs.head? = some c := by
  cases xs <;> simp [other]

end Sparse

end Text

theorem Text.afterLast_subset {sep : Char} {cs : List Char} : afterLast sep cs ⊆ cs := by
  intro c member
  have inside := (List.takeWhile_sublist _).subset (List.mem_reverse.mp member)
  exact List.mem_reverse.mp inside

/-- The names of object types are made of identifiers. -/
def JavaType.isNamed : JavaType → Bool
  | object name => name.toList.all fun c => c = '.' || Text.isNamePart c
  | array elem => elem.isNamed
  | _ => true

/-- A sign of addition or subtraction. -/
def Text.isSign (c : Char) : Bool := c = '+' || c = '-'

theorem Text.ne_of_isSign {a : Char} (plain : isSign a = false) (sign : isSign c = true) : a ≠ c := by
  rintro rfl
  cases plain.symm.trans sign

theorem Text.not_isSign_of_isNamePart (part : isNamePart c = true) : isSign c = false := by
  by_contra sign
  simp only [isSign, Bool.not_eq_false, Bool.or_eq_true, decide_eq_true_eq] at sign
  rcases sign with rfl | rfl <;> cases part

theorem JavaType.isSign_simpleName {t : JavaType} (named : t.isNamed = true) :
    ∀ c ∈ t.simpleName.toList, Text.isSign c = false := by
  induction t with
  | object name =>
    intro c member
    rw [simpleName, String.toList_ofList] at member
    have member := Text.afterLast_subset (Text.afterLast_subset member)
    have part := List.all_eq_true.mp named c member
    simp at part
    rcases part with rfl | part
    · rfl
    · exact Text.not_isSign_of_isNamePart part
  | array elem ih =>
    intro c member
    rw [simpleName, String.toList_append, List.mem_append] at member
    rcases member with member | member
    · exact ih named c member
    · simp at member
      rcases member with rfl | rfl <;> rfl
  | _ => simp [simpleName, text, Text.isSign]

theorem BinOp.sparse_symbol (sign : Text.isSign c = true) (op : BinOp) : Text.Sparse c op.symbol.toList := by
  simp only [Text.isSign, Bool.or_eq_true, decide_eq_true_eq] at sign
  rcases sign with rfl | rfl <;> cases op <;> simp [symbol, Text.sparse_cons]

namespace Expr

variable {c : Char} {e : Expr}

/-- Variables, integers, casts, array elements, and operators that assign nothing. -/
inductive Arithmetic : Expr → Prop
  | var {name : String} : Text.isName name = true → Arithmetic (.var name)
  | int (v : Int) : Arithmetic (.int v)
  | unary {op : UnOp} {e : Expr} : op = .neg ∨ op = .not ∨ op = .bitNot → Arithmetic e → Arithmetic (.unary op e)
  | binary (op : BinOp) {lhs rhs : Expr} : Arithmetic lhs → Arithmetic rhs → Arithmetic (.binary op lhs rhs)
  | cast {t : JavaType} {e : Expr} : t.isNamed = true → Arithmetic e → Arithmetic (.cast t e)
  | index {array position : Expr} : Arithmetic array → Arithmetic position → Arithmetic (.index array position)
  | conditional {cond yes no : Expr} : Arithmetic cond → Arithmetic yes → Arithmetic no →
      Arithmetic (.conditional cond yes no)

/-- An operand of an operator in front of it begins with a minus. -/
def opensWithMinus : Expr → Bool
  | int v => v < 0
  | unary op _ => op == .neg
  | index array _ => 15 ≤ array.precedence && array.opensWithMinus
  | _ => false

/-- Somewhere a minus stands directly in front of another one. -/
def doublesMinus : Expr → Bool
  | unary op e => (op == .neg && e.opensWithMinus) || e.doublesMinus
  | binary _ lhs rhs => lhs.doublesMinus || rhs.doublesMinus
  | cast _ e => e.doublesMinus
  | index array position => array.doublesMinus || position.doublesMinus
  | conditional cond yes no => cond.doublesMinus || yes.doublesMinus || no.doublesMinus
  | _ => false

theorem toList_toString (v : Int) :
    (toString v).toList = if 0 ≤ v then Nat.toDigits 10 v.toNat else '-' :: Nat.toDigits 10 (-v).toNat := by
  rw [Int.toString_eq_repr, Int.repr_eq_if]
  split <;> simp [Nat.repr_eq_ofList_toDigits]

theorem isSign_of_mem_toDigits {n : Nat} (member : c ∈ Nat.toDigits 10 n) : Text.isSign c = false := by
  by_contra sign
  have digit := Nat.isDigit_of_mem_toDigits (by decide) (by decide) member
  simp only [Text.isSign, Bool.not_eq_false, Bool.or_eq_true, decide_eq_true_eq] at sign
  rcases sign with rfl | rfl <;> cases digit

/-- An operand that needs no parentheses begins with a minus if it is negative. -/
theorem Arithmetic.head?_text (arithmetic : e.Arithmetic) (tight : 13 ≤ e.precedence) :
    e.text.toList.head? = some '-' ↔ e.opensWithMinus = true := by
  induction arithmetic with
  | @var name isName =>
    have other : '-' ∉ name.toList := fun member => by cases (Text.isName_iff.mp isName).2 '-' member
    simp only [text, opensWithMinus, Bool.false_eq_true, iff_false]
    exact fun head => other (List.mem_of_head? head)
  | int v =>
    rw [text, toList_toString, opensWithMinus, decide_eq_true_iff]
    split
    · rename_i positive
      refine iff_of_false (fun head => ?_) (by omega)
      cases isSign_of_mem_toDigits (List.mem_of_head? head)
    · rename_i negative
      exact iff_of_true rfl (by omega)
  | unary op _ _ => rcases op with rfl | rfl | rfl <;> simp [text, UnOp.symbol, opensWithMinus]
  | binary op =>
    have loose := op.precedence_bounds.2
    simp only [precedence] at tight
    omega
  | cast => simp [text, opensWithMinus]
  | @index array position _ _ ihArray _ =>
    have first : (Expr.index array position).text.toList.head? = some '-' ↔
        (operand 15 array.precedence array.text).toList.head? = some '-' := by
      have cut : (Expr.index array position).text.toList =
          (operand 15 array.precedence array.text).toList ++ '[' :: (position.text ++ "]").toList := by simp [text]
      rw [cut]
      exact Text.head?_append_cons_of_ne (by decide)
    by_cases loose : array.precedence < 15
    · rw [first, operand, if_pos loose]
      simp [opensWithMinus, loose]
    · have bare := Nat.not_lt.mp loose
      rw [first, operand, if_neg loose, ihArray (by omega)]
      simp [opensWithMinus, bare]
  | conditional => simp [precedence] at tight

theorem sparse_operand (sign : Text.isSign c = true) (least precedence : Nat) (s : String) :
    Text.Sparse c (operand least precedence s).toList ↔ Text.Sparse c s.toList := by
  have enclosing : '(' ≠ c ∧ ')' ≠ c := ⟨Text.ne_of_isSign rfl sign, Text.ne_of_isSign rfl sign⟩
  unfold operand
  split
  · simp [Text.sparse_cons_of_ne enclosing.1, Text.sparse_append_cons_of_ne enclosing.2]
  · rfl

theorem sparse_toString (sign : Text.isSign c = true) (v : Int) : Text.Sparse c (toString v).toList := by
  have absent (n : Nat) : c ∉ Nat.toDigits 10 n := by
    intro member
    rw [isSign_of_mem_toDigits member] at sign
    cases sign
  rw [toList_toString]
  split
  · exact Text.sparse_of_notMem (absent _)
  · refine Text.sparse_cons.mpr ⟨fun both => absent _ (List.mem_of_head? both.2), Text.sparse_of_notMem (absent _)⟩

theorem tight_of_opensWithMinus (opens : e.opensWithMinus = true) : 13 ≤ e.precedence := by
  cases e with
  | int | unary | index => simp [precedence]
  | _ => cases opens

/-- What opens with a minus needs no brackets as an operand. -/
theorem Arithmetic.head?_operand (arithmetic : e.Arithmetic) :
    (operand 13 e.precedence e.text).toList.head? = some '-' ↔ e.opensWithMinus = true := by
  unfold operand
  split
  · rename_i loose
    refine iff_of_false (by simp) fun opens => ?_
    exact Nat.not_le.mpr loose (tight_of_opensWithMinus opens)
  · rename_i tight
    exact arithmetic.head?_text (Nat.not_lt.mp tight)

/-- Signs stand side by side only where a minus is put in front of a minus. -/
theorem Arithmetic.sparse_text (arithmetic : e.Arithmetic) (sign : Text.isSign c = true) :
    Text.Sparse c e.text.toList ↔ (c = '-' → e.doublesMinus = false) := by
  have skip {a : Char} (plain : Text.isSign a = false) {xs : List Char} : Text.Sparse c (a :: xs) ↔ Text.Sparse c xs :=
    Text.sparse_cons_of_ne (Text.ne_of_isSign plain sign)
  have cut {a : Char} (plain : Text.isSign a = false) {xs ys : List Char} :
      Text.Sparse c (xs ++ a :: ys) ↔ Text.Sparse c xs ∧ Text.Sparse c ys :=
    Text.sparse_append_cons_of_ne (Text.ne_of_isSign plain sign)
  have operands := @sparse_operand c sign
  induction arithmetic with
  | @var name isName =>
    refine iff_of_true (Text.sparse_of_notMem fun member => ?_) (by simp [doublesMinus])
    rw [Text.not_isSign_of_isNamePart ((Text.isName_iff.mp isName).2 c member)] at sign
    cases sign
  | int v => exact iff_of_true (sparse_toString sign v) (by simp [doublesMinus])
  | @unary op x isOp arithmetic ih =>
    rcases isOp with rfl | rfl | rfl
    · have step : Text.Sparse c (Expr.unary .neg x).text.toList ↔
          ¬ ('-' = c ∧ (operand 13 x.precedence x.text).toList.head? = some c) ∧ Text.Sparse c x.text.toList := by
        rw [← operands 13 x.precedence x.text, ← Text.sparse_cons]
        simp [text, UnOp.symbol]
      rw [step]
      constructor
      · rintro ⟨apart, inner⟩ rfl
        have closed := mt arithmetic.head?_operand.mpr fun head => apart ⟨rfl, head⟩
        simp [doublesMinus, closed, ih.mp inner rfl]
      · intro single
        refine ⟨?_, ih.mpr fun minus => ?_⟩
        · rintro ⟨rfl, head⟩
          have opens := arithmetic.head?_operand.mp head
          simp [doublesMinus, opens] at single
        · have both := single minus
          simp only [doublesMinus, Bool.or_eq_false_iff] at both
          exact both.2
    · simp [text, UnOp.symbol, skip (a := '!') rfl, operands, ih, doublesMinus]
    · simp [text, UnOp.symbol, skip (a := '~') rfl, operands, ih, doublesMinus]
  | binary op _ _ left right =>
    simp [text, cut (a := ' ') rfl, operands, op.sparse_symbol sign, left, right, doublesMinus, imp_and]
  | @cast t x named _ ih =>
    have type : Text.Sparse c t.simpleName.toList := Text.sparse_of_notMem fun member => by
      rw [JavaType.isSign_simpleName named c member] at sign
      cases sign
    simp [text, skip (a := '(') rfl, skip (a := ' ') rfl, cut (a := ')') rfl, operands, type, ih, doublesMinus]
  | index _ _ ihArray ihPosition =>
    simp [text, cut (a := '[') rfl, cut (a := ']') rfl, operands, ihArray, ihPosition, doublesMinus, imp_and]
  | conditional _ _ _ cond yes no =>
    simp [text, cut (a := ' ') rfl, skip (a := ' ') rfl, skip (a := '?') rfl, skip (a := ':') rfl, operands, cond, yes, no,
      doublesMinus, imp_and, and_assoc]

/-- A text of arithmetic never has two plus signs in a row, and two minus signs only where an operand that begins with a
minus is negated. -/
theorem Arithmetic.doubled_sign_iff {e : Expr} (arithmetic : e.Arithmetic) :
    ¬ "++".toList <:+: e.text.toList ∧ ("--".toList <:+: e.text.toList ↔ e.doublesMinus = true) := by
  constructor
  · exact Text.sparse_iff.mp ((arithmetic.sparse_text rfl).mpr fun minus => absurd minus (by decide))
  · have minus := arithmetic.sparse_text (c := '-') rfl
    rw [Text.sparse_iff] at minus
    rw [← not_iff_not]
    simpa using minus

/-- `-(x - -(int) a[-1])` -/
def signed : Expr :=
  .unary .neg (.binary .sub (.var "x") (.unary .neg (.cast .int (.index (.var "a") (.int (-1))))))

theorem doubled_sign_iff_signed : signed.Arithmetic ∧ signed.doublesMinus = false ∧
    ¬ "++".toList <:+: signed.text.toList ∧ ¬ "--".toList <:+: signed.text.toList := by
  have element : Arithmetic (.index (.var "a") (.int (-1))) := .index (.var (by decide)) (.int (-1))
  have arithmetic : signed.Arithmetic :=
    .unary (.inl rfl) (.binary .sub (.var (by decide)) (.unary (.inl rfl) (.cast rfl element)))
  have single : signed.doublesMinus = false := rfl
  obtain ⟨plus, minus⟩ := arithmetic.doubled_sign_iff
  exact ⟨arithmetic, single, plus, fun doubled => Bool.false_ne_true (single.symm.trans (minus.mp doubled))⟩

/-- A negation of a negation, and of a negative number, is written as a decrement. -/
theorem negation_reads_as_decrement :
    Arithmetic (.unary .neg (.unary .neg (.var "x"))) ∧ (Expr.unary .neg (.unary .neg (.var "x"))).text = "--x" ∧
    Arithmetic (.unary .neg (.int (-1))) ∧ (Expr.unary .neg (.int (-1))).text = "--1" ∧
    "--".toList <:+: "--x".toList ∧ "--".toList <:+: "--1".toList := by
  refine ⟨.unary (.inl rfl) (.unary (.inl rfl) (.var (by decide))), ?_, .unary (.inl rfl) (.int _), ?_, ?_, ?_⟩
  · simp [text, operand, precedence, UnOp.symbol]
  · decide
  · exact ⟨[], ['x'], by decide⟩
  · exact ⟨[], ['1'], by decide⟩

end Expr

end Unstack
