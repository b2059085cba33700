import Mathlib.Control.Basic
import Unstack.Recovery.Fold

namespace Unstack

/-- What happens while code runs. -/
inductive Event where
  /-- An expression is computed that is no logic. -/
  | computed (e : Expr)
  | ran (stmt : Stmt)

/-- The state, and all that happened so far, the latest first. -/
structure World (σ : Type) where
  state : σ
  trace : List Event

/-- A computation that may change the state and may end early. -/
abbrev Run (σ ε α : Type) := ExceptT ε (StateM (World σ)) α

namespace Run

variable {σ ε α β : Type}

/-- What comes of a run that starts in a world, and the world it leaves. -/
def outcome (x : Run σ ε α) (w : World σ) : Except ε α × World σ := x w

@[simp] theorem outcome_pure (a : α) (w : World σ) : (pure a : Run σ ε α).outcome w = (.ok a, w) := rfl

theorem outcome_bind (x : Run σ ε α) (next : α → Run σ ε β) (w : World σ) :
    (x >>= next).outcome w = match x.outcome w with
      | (.ok a, mid) => (next a).outcome mid
      | (.error e, mid) => (.error e, mid) := by
  change (match x.outcome w with
    | (r, mid) => ExceptT.bindCont next r mid) = _
  rcases x.outcome w with ⟨_ | a, mid⟩ <;> rfl

/-- A run in two parts succeeds if both do. -/
theorem outcome_bind_eq_ok {x : Run σ ε α} {next : α → Run σ ε β} {b : β} {w w' : World σ} :
    (x >>= next).outcome w = (.ok b, w') ↔
      ∃ a mid, x.outcome w = (.ok a, mid) ∧ (next a).outcome mid = (.ok b, w') := by
  rw [outcome_bind]
  rcases x.outcome w with ⟨_ | a, mid⟩
  · simp
  · constructor
    · intro last
      exact ⟨a, mid, rfl, last⟩
    · rintro ⟨_, _, ⟨⟩, last⟩
      exact last

end Run

/-- What an expression comes to: a truth value, or anything else. -/
inductive Value (ν : Type) where
  | truth (holds : Bool)
  | data (value : ν)

/-- How all is computed that is no logic: expressions and statements may do anything to the state and may fail, and
each relation holds of some values. -/
structure Semantics (σ ε ν : Type) where
  compute : Expr → ExceptT ε (StateM σ) (Value ν)
  relate : BinOp → Value ν → Value ν → Bool
  perform : Stmt → ExceptT ε (StateM σ) Unit
  /-- What comes of a condition that is no truth value. -/
  noTruth : ε

namespace Semantics

variable {σ ε ν : Type}

/-- A computation that leaves its mark in the trace. -/
def noted {α : Type} (event : Event) (act : ExceptT ε (StateM σ) α) : Run σ ε α := fun w =>
  let (result, state) := act w.state
  (result, ⟨state, event :: w.trace⟩)

/-- Of a relation and the one that is its negation, exactly one holds of any two values. -/
def Complementary (M : Semantics σ ε ν) : Prop :=
  ∀ op negated, op.negateRelation = some negated → ∀ x y, M.relate negated x y = !M.relate op x y

variable (M : Semantics σ ε ν)

def holds : Value ν → Run σ ε Bool
  | .truth b => pure b
  | .data _ => throw M.noTruth

/-- Evaluates an expression from left to right. The second operand of `&&` or `||` and the branches of a conditional
expression are evaluated only if they are needed. -/
@[simp] def eval : Expr → Run σ ε (Value ν)
  | .bool b => pure (.truth b)
  | .unary .not e => do return .truth !(← M.holds (← eval e))
  | .binary .and lhs rhs => do
    if ← M.holds (← eval lhs) then return .truth (← M.holds (← eval rhs)) else return .truth false
  | .binary .or lhs rhs => do
    if ← M.holds (← eval lhs) then return .truth true else return .truth (← M.holds (← eval rhs))
  | .binary op lhs rhs =>
    if op.isRelational then do return .truth (M.relate op (← eval lhs) (← eval rhs))
    else noted (.computed (.binary op lhs rhs)) (M.compute (.binary op lhs rhs))
  | .conditional cond yes no => do if ← M.holds (← eval cond) then eval yes else eval no
  | e => noted (.computed e) (M.compute e)

def test (e : Expr) : Run σ ε Bool := do M.holds (← M.eval e)

def exec (stmt : Stmt) : Run σ ε Unit := noted (.ran stmt) (M.perform stmt)

def execAll (stmts : List Stmt) : Run σ ε Unit := stmts.forM M.exec

theorem test_bool (b : Bool) : M.test (.bool b) = pure b := by
  simp [test, eval, holds]

theorem test_not (e : Expr) : M.test (.unary .not e) = (!·) <$> M.test e := by
  simp [test, eval, holds]

theorem test_and (lhs rhs : Expr) :
    M.test (.binary .and lhs rhs) = (do if ← M.test lhs then M.test rhs else return false) := by
  simp only [test, eval, bind_assoc]
  refine bind_congr fun value => bind_congr fun first => ?_
  cases first <;> simp [holds]

theorem test_or (lhs rhs : Expr) :
    M.test (.binary .or lhs rhs) = (do if ← M.test lhs then return true else M.test rhs) := by
  simp only [test, eval, bind_assoc]
  refine bind_congr fun value => bind_congr fun first => ?_
  cases first <;> simp [holds]

theorem test_relation {op : BinOp} (relational : op.isRelational = true) (lhs rhs : Expr) :
    M.test (.binary op lhs rhs) = (do return M.relate op (← M.eval lhs) (← M.eval rhs)) := by
  cases op <;> simp_all [test, eval, holds, BinOp.isRelational]

/-- Testing an expression is evaluating it to a truth value. -/
theorem test_eq_ok {e : Expr} {b : Bool} {w w' : World σ} :
    (M.test e).outcome w = (.ok b, w') ↔ (M.eval e).outcome w = (.ok (.truth b), w') := by
  rw [test, Run.outcome_bind_eq_ok]
  constructor
  · rintro ⟨value, mid, evaluated, held⟩
    cases value with
    | truth b' =>
      cases held
      exact evaluated
    | data _ => cases held
  · intro evaluated
    exact ⟨_, _, evaluated, rfl⟩

end Semantics

end Unstack
