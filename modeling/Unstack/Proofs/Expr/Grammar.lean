import Unstack.Proofs.Expr.Token

namespace Unstack

variable {level : Nat} {ts rest : List Token} {e : Expr}

/-- How tight a token binds that goes on with an expression, zero if it ends one. -/
def Token.pull : Token → Nat
  | between (.binary op) => op.precedence
  | between (.assign _) => 1
  | between .question => 2
  | behind _ => 14
  | _ => 0

/-- What follows does not go on with an expression by an operator that binds as tight as `level` or tighter. -/
def Stops (level : Nat) (ts : List Token) : Prop := ∀ t ∈ ts.head?, t.pull < level

/-- Where reading stands: in front of an expression, or behind one that may go on. -/
inductive Stage where
  | start
  | after (e : Expr)

/-- Reading goes on as long as the operators bind as tight as `level` or tighter; it makes `e` and leaves `rest`. -/
inductive Parses : Nat → Stage → List Token → Expr → List Token → Prop
  | name {level : Nat} {s : String} {ts rest : List Token} {e : Expr} :
      Parses level (.after (.var s)) ts e rest → Parses level .start (.name s :: ts) e rest
  | group {level : Nat} {inner e : Expr} {ts ts' rest : List Token} : Parses 1 .start ts inner (.rparen :: ts') →
      Parses level (.after inner) ts' e rest → Parses level .start (.lparen :: ts) e rest
  | before {level : Nat} {op : UnOp} {x e : Expr} {ts ts' rest : List Token} : Parses 13 .start ts x ts' →
      Parses level (.after (.unary op x)) ts' e rest → Parses level .start (.before op :: ts) e rest
  | stop {level : Nat} {e : Expr} {ts : List Token} : Stops level ts → Parses level (.after e) ts e ts
  | behind {level : Nat} {op : PostOp} {x e : Expr} {ts rest : List Token} : level ≤ 14 →
      Parses level (.after (.post op x)) ts e rest → Parses level (.after x) (.behind op :: ts) e rest
  | binary {level : Nat} {op : BinOp} {lhs rhs e : Expr} {ts ts' rest : List Token} : level ≤ op.precedence →
      Parses (op.precedence + 1) .start ts rhs ts' → Parses level (.after (.binary op lhs rhs)) ts' e rest →
      Parses level (.after lhs) (.between (.binary op) :: ts) e rest
  | conditional {level : Nat} {cond yes no e : Expr} {ts ts' ts'' rest : List Token} : level ≤ 2 →
      Parses 3 .start ts yes (.between .colon :: ts') → Parses 2 .start ts' no ts'' →
      Parses level (.after (.conditional cond yes no)) ts'' e rest →
      Parses level (.after cond) (.between .question :: ts) e rest
  | assign {level : Nat} {op : Option BinOp} {target value e : Expr} {ts ts' rest : List Token} : level ≤ 1 →
      Parses 1 .start ts value ts' → Parses level (.after (.assign target op value)) ts' e rest →
      Parses level (.after target) (.between (.assign op) :: ts) e rest

theorem Stops.not_le {t : Token} (stops : Stops level (t :: ts)) : ¬ level ≤ t.pull :=
  Nat.not_le.mpr (stops t rfl)

/-- The next token decides how reading goes on, so that it has one result at most. -/
theorem Parses.unique {stage : Stage} {rest' : List Token} {e' : Expr} (parses : Parses level stage ts e rest)
    (parses' : Parses level stage ts e' rest') : e = e' ∧ rest = rest' := by
  induction parses generalizing e' rest' with
  | name _ ih =>
    cases parses' with
    | name next => exact ih next
  | group _ _ ihInner ih =>
    cases parses' with
    | group inner next =>
      obtain ⟨rfl, same⟩ := ihInner inner
      cases same
      exact ih next
  | before _ _ ihOperand ih =>
    cases parses' with
    | before operand next =>
      obtain ⟨rfl, rfl⟩ := ihOperand operand
      exact ih next
  | stop stops =>
    cases parses' with
    | stop => exact ⟨rfl, rfl⟩
    | behind within | binary within | conditional within | assign within => exact absurd within stops.not_le
  | behind within _ ih =>
    cases parses' with
    | stop stops => exact absurd within stops.not_le
    | behind _ next => exact ih next
  | binary within _ _ ihOperand ih =>
    cases parses' with
    | stop stops => exact absurd within stops.not_le
    | binary _ operand next =>
      obtain ⟨rfl, rfl⟩ := ihOperand operand
      exact ih next
  | conditional within _ _ _ ihYes ihNo ih =>
    cases parses' with
    | stop stops => exact absurd within stops.not_le
    | conditional _ yes no next =>
      obtain ⟨rfl, same⟩ := ihYes yes
      cases same
      obtain ⟨rfl, rfl⟩ := ihNo no
      exact ih next
  | assign within _ _ ihValue ih =>
    cases parses' with
    | stop stops => exact absurd within stops.not_le
    | assign _ value next =>
      obtain ⟨rfl, rfl⟩ := ihValue value
      exact ih next

theorem Stops.mono {level' : Nat} (stops : Stops level ts) (le : level ≤ level') : Stops level' ts :=
  fun t head => (stops t head).trans_le le

theorem stops_cons {t : Token} (lt : t.pull < level) (ts : List Token) : Stops level (t :: ts) := by
  intro t' head
  cases head
  exact lt

theorem BinOp.precedence_bounds (op : BinOp) : 3 ≤ op.precedence ∧ op.precedence ≤ 12 := by
  cases op <;> decide

namespace Expr

/-- Operators that go on with an expression as a whole bind looser than this. An operand on the right takes to itself what
binds as tight as the operator. -/
def grip : Expr → Nat
  | binary op _ _ => op.precedence + 1
  | unary .. => 13
  | post .. => 15
  | conditional .. => 2
  | assign .. => 1
  | _ => 16

theorem one_le_precedence (e : Expr) : 1 ≤ e.precedence := by
  cases e with
  | binary op _ _ => exact (by decide : 1 ≤ 3).trans op.precedence_bounds.1
  | _ => simp only [precedence]; omega

theorem precedence_le_grip (e : Expr) : e.precedence ≤ e.grip := by
  cases e <;> simp only [precedence, grip] <;> omega

/-- What comes from an operator on the left, which only the looser ones can go on with. -/
theorem lt_grip {n : Nat} (le : n ≤ e.precedence) (least : 3 ≤ n) (other : n ≠ 13) : n < e.grip := by
  cases e <;> simp only [precedence, grip] at * <;> omega

/-- The tokens of the expression are read as that expression, which reading then goes on with. -/
def ReadsBack (e : Expr) : Prop :=
  ∀ ⦃level : Nat⦄ ⦃ts rest : List Token⦄ ⦃result : Expr⦄, level ≤ e.precedence → Stops e.grip ts →
    Parses level (.after e) ts result rest → Parses level .start (e.tokens ++ ts) result rest

/-- Inside parentheses any expression can be an operand. -/
theorem ReadsBack.enclose {x result : Expr} {least : Nat} (back : x.ReadsBack) (within : level ≤ least)
    (stops : least ≤ x.precedence → Stops x.grip ts) (next : Parses level (.after x) ts result rest) :
    Parses level .start (enclose least x.precedence x.tokens ++ ts) result rest := by
  unfold Expr.enclose
  split
  · have positive := x.one_le_precedence
    have closed : Parses 1 .start (x.tokens ++ .rparen :: ts) x (.rparen :: ts) :=
      back positive (stops_cons (positive.trans x.precedence_le_grip) ts) (.stop (stops_cons Nat.one_pos ts))
    simpa using Parses.group closed next
  · rename_i tight
    have fits := Nat.not_lt.mp tight
    exact back (within.trans fits) (stops fits) next

/-- An operand on the right ends where nothing goes on with it. -/
theorem ReadsBack.last {x : Expr} (back : x.ReadsBack) (stops : Stops level ts) :
    Parses level .start (Expr.enclose level x.precedence x.tokens ++ ts) x ts :=
  back.enclose le_rfl (fun fits => stops.mono (fits.trans x.precedence_le_grip)) (.stop stops)

theorem Symbolic.readsBack (symbolic : e.Symbolic) : e.ReadsBack := by
  induction symbolic with
  | var => exact fun _ _ _ _ _ _ next => .name next
  | @binary op lhs rhs _ _ left right =>
    intro level ts rest result within stops next
    obtain ⟨least, most⟩ := op.precedence_bounds
    have looser (fits : op.precedence ≤ lhs.precedence) : op.precedence < lhs.grip := lt_grip fits least (by omega)
    rw [tokens, List.append_assoc]
    exact left.enclose within (fun fits => stops_cons (looser fits) _) (.binary within (right.last stops) next)
  | unary _ _ ih =>
    intro level ts rest result within stops next
    exact .before (ih.last stops) next
  | @post op x _ ih =>
    intro level ts rest result within stops next
    have looser (fits : 14 ≤ x.precedence) : 14 < x.grip := lt_grip fits (by decide) (by decide)
    rw [tokens, List.append_assoc]
    exact ih.enclose within (fun fits => stops_cons (looser fits) _) (.behind within next)
  | @conditional cond yes no _ _ _ ihCond ihYes ihNo =>
    intro level ts rest result (within : level ≤ 2) stops next
    have looser (fits : 3 ≤ cond.precedence) : 2 < cond.grip := by
      have tight := lt_grip fits le_rfl (by decide)
      omega
    have colon (after : List Token) : Stops 3 (.between .colon :: after) := stops_cons (by decide) after
    simp only [tokens, List.append_assoc, List.cons_append]
    exact ihCond.enclose (by omega) (fun fits => stops_cons (looser fits) _)
      (.conditional within (ihYes.last (colon _)) (ihNo.last stops) next)
  | @assign op target value _ _ _ ihTarget ihValue =>
    intro level ts rest result (within : level ≤ 1) stops next
    have looser (fits : 15 ≤ target.precedence) : 1 < target.grip := by
      have tight := lt_grip fits (by decide) (by decide)
      omega
    rw [tokens, List.append_assoc]
    exact ihTarget.enclose (by omega) (fun fits => stops_cons (looser fits) _)
      (.assign within (ihValue.last stops) next)

/-- All the tokens of an expression make up this expression. -/
theorem Symbolic.parses (symbolic : e.Symbolic) : Parses 1 .start e.tokens e [] := by
  have stops (level : Nat) : Stops level [] := by simp [Stops]
  simpa using symbolic.readsBack e.one_le_precedence (stops _) (.stop (stops 1))

/-- Operators are written so that no two expressions have the same text. -/
theorem Symbolic.text_inj {e e' : Expr} (symbolic : e.Symbolic) (symbolic' : e'.Symbolic) :
    e.text = e'.text ↔ e = e' := by
  refine ⟨fun same => ?_, congrArg text⟩
  have parses : Parses 1 .start e.tokens e' [] := by
    rw [symbolic.tokens_eq symbolic' same]
    exact symbolic'.parses
  exact (symbolic.parses.unique parses).1

/-- `a ? b : c ? d += e : !f` -/
def chosenLast : Expr :=
  .conditional (.var "a") (.var "b")
    (.conditional (.var "c") (.assign (.var "d") (some .add) (.var "e")) (.unary .not (.var "f")))

/-- `(a ? b : c) ? d += e : !f` -/
def chosenFirst : Expr :=
  .conditional (.conditional (.var "a") (.var "b") (.var "c")) (.assign (.var "d") (some .add) (.var "e"))
    (.unary .not (.var "f"))

theorem text_chosenLast_ne : chosenLast.Symbolic ∧ chosenFirst.Symbolic ∧ chosenLast.text ≠ chosenFirst.text := by
  have update : Symbolic (.assign (.var "d") (some .add) (.var "e")) :=
    .assign (by decide) (.var (by decide)) (.var (by decide))
  have last : chosenLast.Symbolic :=
    .conditional (.var (by decide)) (.var (by decide))
      (.conditional (.var (by decide)) update (.unary (.inl rfl) (.var (by decide))))
  have first : chosenFirst.Symbolic :=
    .conditional (.conditional (.var (by decide)) (.var (by decide)) (.var (by decide))) update
      (.unary (.inl rfl) (.var (by decide)))
  refine ⟨last, first, fun same => ?_⟩
  cases (last.text_inj first).mp same

end Expr

end Unstack
