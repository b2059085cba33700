import Unstack.Proofs.Expr.Evaluation

namespace Unstack

namespace Run

variable {σ ε α β : Type}

theorem ext {x y : Run σ ε α} (same : ∀ w, x.outcome w = y.outcome w) : x = y := funext same

/-- The run leaves the world as it is. -/
def Reads (x : Run σ ε α) : Prop := ∀ w, (x.outcome w).2 = w

/-- Once the run has succeeded, it would give the same again and change nothing more. -/
def Repeats (x : Run σ ε α) : Prop := ∀ w a mid, x.outcome w = (.ok a, mid) → x.outcome mid = (.ok a, mid)

theorem Reads.pure (a : α) : Reads (Pure.pure a : Run σ ε α) := fun _ => rfl

theorem Reads.throw (e : ε) : Reads (MonadExcept.throw e : Run σ ε α) := fun _ => rfl

theorem Reads.bind {x : Run σ ε α} {next : α → Run σ ε β} (first : x.Reads) (second : ∀ a, (next a).Reads) :
    Reads (x >>= next) := by
  intro w
  have same := first w
  rw [outcome_bind]
  rcases run : x.outcome w with ⟨_ | a, mid⟩
  · rwa [run] at same
  · rw [run] at same
    cases same
    exact second a mid

/-- What changes nothing gives the same result again. -/
theorem Reads.repeats {x : Run σ ε α} (reads : x.Reads) : x.Repeats := by
  intro w a mid run
  have same := reads w
  rw [run] at same
  cases same
  exact run

/-- What can be repeated need not be done twice. -/
theorem Repeats.bind_twice {x : Run σ ε α} (repeats : x.Repeats) (next : α → α → Run σ ε β) :
    (x >>= fun a => x >>= fun b => next a b) = x >>= fun a => next a a := by
  apply ext
  intro w
  rw [outcome_bind, outcome_bind]
  rcases run : x.outcome w with ⟨_ | a, mid⟩
  · rfl
  · simp only
    rw [outcome_bind, repeats w a mid run]

end Run

/-- A place that can be read and written, with the values that lead to it. -/
inductive Location (ν : Type) where
  | var (name : String)
  | field (object : ν) (name : String)
  | element (array position : ν)

/-- What is done with the values of some operands. -/
inductive Primitive where
  | unary (op : UnOp)
  | cast (t : JavaType)
  | instanceOf (t : JavaType)
  | length
  | compare (t : JavaType)
  | call (name : String)
  | superCall (name : String)
  | create (t : JavaType)
  | newArray (t : JavaType)
  | filledArray (t : JavaType)
  | unknown (text : String)

/-- Primitives that only compute a value. -/
def Primitive.computes : Primitive → Bool
  | unary _ | cast _ | instanceOf _ | length | compare _ => true
  | _ => false

/-- What all the parts of an expression do: they may read and change anything and may fail. -/
structure Host (σ ε ν : Type) where
  /-- The value of a literal, of `this`, or of a type in front of a static member. -/
  constant : Expr → ν
  fetch : Location ν → Run σ ε ν
  /-- Stores a value, and gives what is there afterwards. -/
  put : Location ν → ν → Run σ ε ν
  operate : BinOp → ν → ν → Run σ ε ν
  truth : ν → Run σ ε Bool
  perform : Primitive → List ν → Run σ ε ν
  /-- What comes of an assignment to something that is no place. -/
  noPlace : ε

namespace Host

variable {σ ε ν : Type} (M : Host σ ε ν)

/-- Changes a place by an operator and a value that is computed after the old value was read. -/
def update (p : Location ν) (op : BinOp) (value : Run σ ε ν) : Run σ ε ν := do
  let old ← M.fetch p
  let new ← M.operate op old (← value)
  M.put p new

mutual

/-- Evaluates an expression: operands from left to right, and each as often as it is written. -/
def eval : Expr → Run σ ε ν
  | .var x => M.fetch (.var x)
  | .field object name => do M.fetch (.field (← eval object) name)
  | .index array position => do M.fetch (.element (← eval array) (← eval position))
  | .binary op lhs rhs => do
    let x ← eval lhs
    if op.isLogical then
      -- true decides `||`, and false decides `&&`
      if (← M.truth x) = decide (op = .or) then return x else eval rhs
    else M.operate op x (← eval rhs)
  | .unary .preInc place => do M.update (← locate place) .add (pure (M.constant (.int 1)))
  | .unary .preDec place => do M.update (← locate place) .sub (pure (M.constant (.int 1)))
  | .unary op e => do M.perform (.unary op) [← eval e]
  | .post op place => do
    let p ← locate place
    let old ← M.fetch p
    let _ ← M.put p (← M.operate (if op = .inc then .add else .sub) old (M.constant (.int 1)))
    return old
  | .assign target none value => do
    let p ← locate target
    M.put p (← eval value)
  | .assign target (some op) value => do M.update (← locate target) op (eval value)
  | .cast t e => do M.perform (.cast t) [← eval e]
  | .instanceOf e t => do M.perform (.instanceOf t) [← eval e]
  | .length array => do M.perform .length [← eval array]
  | .compare t lhs rhs => do M.perform (.compare t) [← eval lhs, ← eval rhs]
  | .conditional cond yes no => do if ← M.truth (← eval cond) then eval yes else eval no
  | .call receiver name args => do M.perform (.call name) ((← eval receiver) :: (← evalAll args))
  | .superCall name args => do M.perform (.superCall name) (← evalAll args)
  | .create t args => do M.perform (.create t) (← evalAll args)
  | .newArray t dims => do M.perform (.newArray t) (← evalAll dims)
  | .filledArray t _ values => do M.perform (.filledArray t) (← evalAll values)
  | .unknown text => M.perform (.unknown text) []
  | e => pure (M.constant e)

/-- Evaluates what leads to a place. -/
def locate : Expr → Run σ ε (Location ν)
  | .var x => pure (.var x)
  | .field object name => do return .field (← eval object) name
  | .index array position => do return .element (← eval array) (← eval position)
  | _ => throw M.noPlace

def evalAll : List Expr → Run σ ε (List ν)
  | [] => pure []
  | e :: rest => do return (← eval e) :: (← evalAll rest)

end

theorem eval_binary {op : BinOp} (plain : op.isLogical = false) (lhs rhs : Expr) :
    M.eval (.binary op lhs rhs) = M.eval lhs >>= fun x => M.eval rhs >>= M.operate op x := by
  simp [eval, plain]

theorem eval_assign (target value : Expr) :
    M.eval (.assign target none value) = M.locate target >>= fun p => M.eval value >>= M.put p := rfl

theorem eval_assign_some (target value : Expr) (op : BinOp) :
    M.eval (.assign target (some op) value) = M.locate target >>= fun p => M.update p op (M.eval value) := rfl

/-- An expression that names a place gives what is there. -/
theorem eval_eq_fetch {target : Expr} (isPlace : M.locate target ≠ throw M.noPlace) :
    M.eval target = M.locate target >>= M.fetch := by
  cases target with
  | var | field | index => simp [eval, locate]
  | _ => exact absurd rfl isPlace

end Host

/-- Nothing in the expression has a side effect of its own. -/
def Expr.still : Expr → Bool
  | .field e _ => e.still
  | .cast _ e => e.still
  | .instanceOf e _ => e.still
  | .length e => e.still
  | .unary op e => op != .preInc && op != .preDec && e.still
  | .binary _ lhs rhs => lhs.still && rhs.still
  | .index array position => array.still && position.still
  | .compare _ lhs rhs => lhs.still && rhs.still
  | .conditional cond yes no => cond.still && yes.still && no.still
  | .post .. | .assign .. | .call .. | .superCall .. | .create .. | .newArray .. | .filledArray .. | .unknown _ => false
  | _ => true

/-- Reading and computing change nothing. -/
structure Host.Quiet {σ ε ν : Type} (M : Host σ ε ν) : Prop where
  fetch (p : Location ν) : (M.fetch p).Reads
  operate (op : BinOp) (x y : ν) : (M.operate op x y).Reads
  truth (x : ν) : (M.truth x).Reads
  perform (primitive : Primitive) (operands : List ν) : primitive.computes = true → (M.perform primitive operands).Reads

namespace Host.Quiet

variable {σ ε ν : Type} {M : Host σ ε ν} (quiet : M.Quiet)

include quiet

theorem reads_eval {e : Expr} (still : e.still = true) : (M.eval e).Reads := by
  fun_induction Expr.still e with
  | case1 e name ih => exact (ih still).bind fun x => quiet.fetch _
  | case2 t e ih => exact (ih still).bind fun x => quiet.perform _ _ rfl
  | case3 e t ih => exact (ih still).bind fun x => quiet.perform _ _ rfl
  | case4 e ih => exact (ih still).bind fun x => quiet.perform _ _ rfl
  | case5 op e ih =>
    simp only [Bool.and_eq_true] at still
    have computed : M.eval (.unary op e) = M.eval e >>= fun x => M.perform (.unary op) [x] := by
      cases op with
      | preInc | preDec => simp at still
      | neg | not | bitNot => rfl
    rw [computed]
    exact (ih still.2).bind fun x => quiet.perform _ _ rfl
  | case6 op lhs rhs ihLeft ihRight =>
    obtain ⟨left, right⟩ := Bool.and_eq_true_iff.mp still
    refine (ihLeft left).bind fun x => ?_
    split
    · refine (quiet.truth x).bind fun holds => ?_
      split
      · exact .pure x
      · exact ihRight right
    · exact (ihRight right).bind fun y => quiet.operate op x y
  | case7 array position ihArray ihPosition =>
    obtain ⟨first, second⟩ := Bool.and_eq_true_iff.mp still
    exact (ihArray first).bind fun x => (ihPosition second).bind fun y => quiet.fetch _
  | case8 t lhs rhs ihLeft ihRight =>
    obtain ⟨left, right⟩ := Bool.and_eq_true_iff.mp still
    exact (ihLeft left).bind fun x => (ihRight right).bind fun y => quiet.perform _ _ rfl
  | case9 cond yes no ihCond ihYes ihNo =>
    simp only [Bool.and_eq_true] at still
    refine (ihCond still.1.1).bind fun x => (quiet.truth x).bind fun holds => ?_
    split
    · exact ihYes still.1.2
    · exact ihNo still.2
  | case10 | case11 | case12 | case13 | case14 | case15 | case16 | case17 => cases still
  | case18 e =>
    cases e with
    | var x => exact quiet.fetch _
    | null | bool | int | long | float | double | char | string | classOf | this | typeName => exact .pure _
    | _ => simp_all

/-- A place whose operands have no side effects is found again where it was. -/
theorem repeats_locate {target : Expr} (still : target.still = true) : (M.locate target).Repeats := by
  apply Run.Reads.repeats
  cases target with
  | var x => exact .pure _
  | field object name =>
    have still : object.still = true := still
    exact (quiet.reads_eval still).bind fun x => .pure _
  | index array position =>
    obtain ⟨first, second⟩ := Bool.and_eq_true_iff.mp still
    exact (quiet.reads_eval first).bind fun x => (quiet.reads_eval second).bind fun y => .pure _
  | _ => exact .throw _

end Host.Quiet

end Unstack
