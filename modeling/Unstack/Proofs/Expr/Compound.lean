import Unstack.Proofs.Expr.Effects
import Unstack.Recovery.Scratch

namespace Unstack

namespace Expr

mutual

/-- No literal is a floating point zero. -/
def zeroFree : Expr → Bool
  | .float value | .double value => !value.equal (.zero false)
  | .unary _ e | .post _ e | .cast _ e | .instanceOf e _ | .field e _ | .length e => zeroFree e
  | .binary _ a b | .index a b | .assign a _ b | .compare _ a b => zeroFree a && zeroFree b
  | .conditional c a b => zeroFree c && zeroFree a && zeroFree b
  | .call e _ args => zeroFree e && allZeroFree args
  | .superCall _ args | .create _ args | .newArray _ args => allZeroFree args
  | .filledArray _ dims values => allZeroFree dims && allZeroFree values
  | _ => true

def allZeroFree : List Expr → Bool
  | [] => true
  | e :: rest => zeroFree e && allZeroFree rest

end

end Expr

theorem Binary64.eq_of_equal {a b : Binary64} (same : a.equal b = true) (nonzero : b.equal (.zero false) = false) : a = b := by
  cases a <;> cases b <;> simp_all [equal, zero]

namespace Expr

theorem same_eq_and : (∀ a b : Expr, same a b = true → b.zeroFree = true → a = b) ∧
    ∀ as bs : List Expr, sameAll as bs = true → allZeroFree bs = true → as = bs := by
  apply same.mutual_induct
  case case6 | case7 =>
    intro a b same nonzero
    rw [Binary64.eq_of_equal same (by simpa [zeroFree] using nonzero)]
  case case30 =>
    -- expressions of different kinds
    intros
    rename_i same _
    simp [Expr.same, *] at same
  all_goals intros; simp_all [same, sameAll, zeroFree, allZeroFree]

/-- The value begins with the target again, and its operator has a compound form. -/
def repeatsTarget (target value : Expr) : Bool :=
  match value with
  | .binary op lhs _ => op.hasCompoundForm && lhs.same target
  | _ => false

theorem assignment_false (target value : Expr) : assignment false target value = .assign target none value := by
  cases value <;> rfl

theorem assignment_true {target value : Expr} (other : repeatsTarget target value = false) :
    assignment true target value = .assign target none value := by
  cases value with
  | binary op lhs rhs => exact if_neg (by simpa [repeatsTarget] using other)
  | _ => rfl

/-- An assignment gets its compound form only from a value that begins with the target. -/
theorem eq_binary_of_repeatsTarget {target value : Expr} (repeated : repeatsTarget target value = true)
    (zeroFree : target.zeroFree = true) :
    ∃ op rhs, value = .binary op target rhs ∧ op.hasCompoundForm = true ∧
      assignment true target value = .assign target (some op) rhs := by
  cases value with
  | binary op lhs rhs =>
    obtain ⟨compound, same⟩ := Bool.and_eq_true_iff.mp repeated
    obtain rfl := same_eq_and.1 lhs target same zeroFree
    exact ⟨op, rhs, rfl, compound, if_pos (by simp [compound, same])⟩
  | _ => cases repeated

end Expr

theorem BinOp.not_isLogical_of_hasCompoundForm {op : BinOp} (compound : op.hasCompoundForm = true) : op.isLogical = false := by
  cases op <;> first | rfl | cases compound

namespace Host

variable {σ ε ν : Type} (M : Host σ ε ν)

/-- A value that is computed from a place and stored back is an update, if the way to the place can be repeated. -/
theorem eval_assign_binary {target rhs : Expr} {op : BinOp} (compound : op.hasCompoundForm = true)
    (repeats : (M.locate target).Repeats) :
    M.eval (.assign target none (.binary op target rhs)) = M.eval (.assign target (some op) rhs) := by
  by_cases nowhere : M.locate target = throw M.noPlace
  · rw [eval_assign, eval_assign_some, nowhere]
    rfl
  · have plain := BinOp.not_isLogical_of_hasCompoundForm compound
    -- the place is found, and on the long way it is found again before it is read
    calc M.eval (.assign target none (.binary op target rhs))
        = M.locate target >>= fun p => M.locate target >>= fun again => M.fetch again >>= fun old =>
            M.eval rhs >>= fun y => M.operate op old y >>= M.put p := by
          simp only [eval_assign, M.eval_binary plain, M.eval_eq_fetch nowhere, bind_assoc]
      _ = M.locate target >>= fun p => M.fetch p >>= fun old => M.eval rhs >>= fun y => M.operate op old y >>= M.put p :=
          repeats.bind_twice _
      _ = M.eval (.assign target (some op) rhs) := rfl

/-- A compound assignment does the same as the long one, whatever is read, changed or raised on the way, if the way to the
target can be repeated. On a host where reading and computing change nothing, that is so if the target has no side effects.
-/
theorem eval_assignment_compound {target value : Expr}
    (safe : target.repeatsTarget value = true →
      target.zeroFree = true ∧ ((M.locate target).Repeats ∨ M.Quiet ∧ target.still = true)) :
    M.eval (.assignment true target value) = M.eval (.assignment false target value) := by
  rw [Expr.assignment_false]
  cases repeated : target.repeatsTarget value with
  | false => rw [Expr.assignment_true repeated]
  | true =>
    obtain ⟨zeroFree, repeats⟩ := safe repeated
    have repeats : (M.locate target).Repeats := by
      rcases repeats with given | ⟨quiet, still⟩
      · exact given
      · exact quiet.repeats_locate still
    obtain ⟨op, rhs, rfl, compound, folded⟩ := Expr.eq_binary_of_repeatsTarget repeated zeroFree
    rw [folded, M.eval_assign_binary compound repeats]

end Host

/-- Variables, and one array. -/
structure Tape where
  vars : String → Int
  cells : Int → Int

namespace Tape

def fetch (p : Location Int) (s : Tape) : Int :=
  match p with
  | .var x => s.vars x
  | .element _ position => s.cells position
  | .field _ _ => 0

def put (p : Location Int) (value : Int) (s : Tape) : Tape :=
  match p with
  | .var x => { s with vars := fun y => if y = x then value else s.vars y }
  | .element _ position => { s with cells := fun i => if i = position then value else s.cells i }
  | .field _ _ => s

/-- Sums and differences, and functions that give their last argument. The negative zero has its sign in the value. -/
def host : Host Tape Unit Int where
  constant e := match e with
    | .int v => v
    | .double v => if v = .zero true then -1 else 0
    | _ => 0
  fetch p := fun w => (.ok (fetch p w.state), w)
  put p value := fun w => (.ok value, { w with state := put p value w.state })
  operate op x y := pure (if op = .sub then x - y else x + y)
  truth x := pure (decide (x ≠ 0))
  perform _ operands := pure (operands.getLastD 0)
  noPlace := ()

theorem host_quiet : host.Quiet :=
  ⟨fun _ _ => rfl, fun _ _ _ => .pure _, fun _ => .pure _, fun _ _ _ => .pure _⟩

def tens : World Tape := ⟨⟨fun _ => 0, fun i => 10 * i⟩, []⟩

/-- `a[i]` -/
def element : Expr := .index (.var "a") (.var "i")

/-- `a[i++]` -/
def nextElement : Expr := .index (.var "a") (.post .inc (.var "i"))

/-- `a[f(0.0)]`, with either of the two zeros -/
def zeroElement (negative : Bool) : Expr := .index (.var "a") (.call .this "f" [.double (.zero negative)])

end Tape

namespace Host

open Tape

/-- The element counts up, in either spelling. -/
theorem eval_assignment_compound_element : element.repeatsTarget (.binary .add element (.int 1)) = true ∧
    host.eval (.assignment true element (.binary .add element (.int 1))) =
      host.eval (.assignment false element (.binary .add element (.int 1))) ∧
    ((host.eval (.assignment true element (.binary .add element (.int 1)))).outcome tens).2.state.cells 0 = 1 := by
  refine ⟨by decide, host.eval_assignment_compound fun _ => ⟨by decide, .inr ⟨host_quiet, by decide⟩⟩, ?_⟩
  decide

/-- `a[i++] += 1` goes one step where `a[i++] = a[i++] + 1` goes two and reads the second element. And where the value
begins with the target but for the sign of a zero, the compound form reads what the long one does not. -/
theorem eval_assignment_compound_once :
    (∃ once twice : World Tape,
      (host.eval (.assignment true nextElement (.binary .add nextElement (.int 1)))).outcome tens = (.ok 1, once) ∧
      (host.eval (.assignment false nextElement (.binary .add nextElement (.int 1)))).outcome tens = (.ok 11, twice) ∧
      once.state.vars "i" = 1 ∧ twice.state.vars "i" = 2) ∧
    (host.locate (zeroElement false)).Repeats ∧
      ((host.eval (.assignment true (zeroElement false) (.binary .add (zeroElement true) (.int 1)))).outcome tens).1 = .ok 1 ∧
      ((host.eval (.assignment false (zeroElement false) (.binary .add (zeroElement true) (.int 1)))).outcome tens).1 =
        .ok (-9) := by
  refine ⟨⟨_, _, rfl, rfl, rfl, rfl⟩, Run.Reads.repeats fun _ => rfl, rfl, rfl⟩

end Host

end Unstack
