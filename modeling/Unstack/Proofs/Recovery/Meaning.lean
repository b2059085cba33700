import Mathlib.Data.List.Basic
import Mathlib.Logic.Function.Basic
import Unstack.Recovery.Block

namespace Unstack

abbrev Word := BitVec 32

/-- The values of all variables of type `int`. -/
abbrev Store := String → Word

/-- The variable that stands for a register without a debug name. -/
def regName (reg : Nat) : String := "r" ++ toString reg

def Store.regs (σ : Store) (reg : Nat) : Word := σ (regName reg)

/-- No two registers share a name. -/
theorem regName_inj {a b : Nat} : regName a = regName b ↔ a = b := by
  refine ⟨fun same => ?_, congrArg regName⟩
  have digits : Nat.toDigits 10 a = Nat.toDigits 10 b := by
    simpa [regName, Nat.toString_eq_ofList_toDigits] using congrArg String.toList same
  rw [← @Nat.ofDigitChars_ten_toDigits a, digits, Nat.ofDigitChars_ten_toDigits]

theorem Store.regs_update (σ : Store) (reg : Nat) (value : Word) :
    Store.regs (Function.update σ (regName reg) value) = Function.update σ.regs reg value := by
  funext other
  unfold Store.regs
  by_cases same : other = reg
  · rw [same, Function.update_self, Function.update_self]
  · rw [Function.update_of_ne (mt regName_inj.mp same), Function.update_of_ne same]

def BinOp.onWords? : BinOp → Option (Word → Word → Word)
  | add => some (· + ·)
  | sub => some (· - ·)
  | mul => some (· * ·)
  | bitAnd => some (· &&& ·)
  | bitOr => some (· ||| ·)
  | bitXor => some (· ^^^ ·)
  | _ => none

/-- Evaluates an expression of type `int` from left to right; gives its value and the variables afterwards. -/
def Expr.eval : Expr → Store → Option (Word × Store)
  | int v, σ => some (BitVec.ofInt 32 v, σ)
  | var x, σ => some (σ x, σ)
  | binary op lhs rhs, σ => do
    let f ← op.onWords?
    let (a, σ) ← lhs.eval σ
    let (b, σ) ← rhs.eval σ
    return (f a b, σ)
  | unary .neg e, σ => do
    let (a, σ) ← e.eval σ
    return (-a, σ)
  | unary .bitNot e, σ => do
    let (a, σ) ← e.eval σ
    return (~~~a, σ)
  | unary .preInc (var x), σ => some (σ x + 1, Function.update σ x (σ x + 1))
  | unary .preDec (var x), σ => some (σ x - 1, Function.update σ x (σ x - 1))
  | post .inc (var x), σ => some (σ x, Function.update σ x (σ x + 1))
  | post .dec (var x), σ => some (σ x, Function.update σ x (σ x - 1))
  | assign (var x) none e, σ => do
    let (a, σ) ← e.eval σ
    return (a, Function.update σ x a)
  | assign (var x) (some op) e, σ => do
    let f ← op.onWords?
    let (b, σ') ← e.eval σ
    return (f (σ x) b, Function.update σ' x (f (σ x) b))
  | _, _ => none

/-- Executes a statement that only works on variables of type `int`. -/
def Stmt.exec : Stmt → Store → Option Store
  | expr e, σ => (e.eval σ).map Prod.snd
  | declare _ x (some e), σ => (e.eval σ).map fun (a, σ) => Function.update σ x a
  | _, _ => none

def Stmt.execAll (stmts : List Stmt) (σ : Store) : Option Store := stmts.foldlM (fun σ stmt => stmt.exec σ) σ

/-- Evaluates the expressions of a stack from the bottom to the top. Like the stack itself, the expressions and
their values are given top first. -/
def Expr.evalStack : List Expr → Store → Option (List Word × Store)
  | [], σ => some ([], σ)
  | e :: rest, σ => do
    let (values, σ) ← evalStack rest σ
    let (a, σ) ← e.eval σ
    return (a :: values, σ)

structure Machine where
  /-- Top first. -/
  stack : List Word
  regs : Nat → Word

namespace Machine

def arith? : Arith → Option (Word → Word → Word)
  | .add => some (· + ·)
  | .sub => some (· - ·)
  | .mul => some (· * ·)
  | .and => some (· &&& ·)
  | .or => some (· ||| ·)
  | .xor => some (· ^^^ ·)
  | _ => none

def dup : DupForm → List Word → Option (List Word)
  | .dup, a :: rest => some (a :: a :: rest)
  | .dupX1, a :: b :: rest => some (a :: b :: a :: rest)
  | .dupX2, a :: b :: c :: rest => some (a :: b :: c :: a :: rest)
  | .dup2, a :: b :: rest => some (a :: b :: a :: b :: rest)
  | .dup2X1, a :: b :: c :: rest => some (a :: b :: c :: a :: b :: rest)
  | .dup2X2, a :: b :: c :: d :: rest => some (a :: b :: c :: d :: a :: b :: rest)
  | _, _ => none

theorem dup_append {form : DupForm} {xs ys zs : List Word} (lengths : xs.length = form.shape.1)
    (lengths' : ys.length = form.shape.2) : dup form (xs ++ (ys ++ zs)) = some (xs ++ (ys ++ (xs ++ zs))) := by
  cases form with
  | dup =>
    obtain ⟨a, rfl⟩ := List.length_eq_one_iff.mp lengths
    cases List.length_eq_zero_iff.mp lengths'
    rfl
  | dupX1 =>
    obtain ⟨a, rfl⟩ := List.length_eq_one_iff.mp lengths
    obtain ⟨c, rfl⟩ := List.length_eq_one_iff.mp lengths'
    rfl
  | dupX2 =>
    obtain ⟨a, rfl⟩ := List.length_eq_one_iff.mp lengths
    obtain ⟨c, d, rfl⟩ := List.length_eq_two.mp lengths'
    rfl
  | dup2 =>
    obtain ⟨a, b, rfl⟩ := List.length_eq_two.mp lengths
    cases List.length_eq_zero_iff.mp lengths'
    rfl
  | dup2X1 =>
    obtain ⟨a, b, rfl⟩ := List.length_eq_two.mp lengths
    obtain ⟨c, rfl⟩ := List.length_eq_one_iff.mp lengths'
    rfl
  | dup2X2 =>
    obtain ⟨a, b, rfl⟩ := List.length_eq_two.mp lengths
    obtain ⟨c, d, rfl⟩ := List.length_eq_two.mp lengths'
    rfl

/-- Executes one operation of type `int`, or one that moves values on the stack. -/
def step (m : Machine) : Instr → Option Machine
  | .load .int reg => some { m with stack := m.regs reg :: m.stack }
  | .store .int reg =>
    match m.stack with
    | a :: rest => some { stack := rest, regs := Function.update m.regs reg a }
    | _ => none
  | .inc .int reg amount =>
    some { m with regs := Function.update m.regs reg (m.regs reg + BitVec.ofInt 32 amount) }
  | .push .int (.int v) => some { m with stack := BitVec.ofInt 32 v :: m.stack }
  | .arith op .int =>
    match arith? op, m.stack with
    | some f, b :: a :: rest => some { m with stack := f a b :: rest }
    | _, _ => none
  | .neg .int =>
    match m.stack with
    | a :: rest => some { m with stack := -a :: rest }
    | _ => none
  | .dup form => (dup form m.stack).map fun stack => { m with stack }
  | .swap =>
    match m.stack with
    | a :: b :: rest => some { m with stack := b :: a :: rest }
    | _ => none
  | .pop .pop =>
    match m.stack with
    | _ :: rest => some { m with stack := rest }
    | _ => none
  | .pop .pop2 =>
    match m.stack with
    | _ :: _ :: rest => some { m with stack := rest }
    | _ => none
  | _ => none

def run (ops : List Operation) (m : Machine) : Option Machine := ops.foldlM (fun m o => m.step o.instr) m

end Machine

def Instr.onInts : Instr → Bool
  | .load .int _ | .store .int _ | .inc .int _ _ | .push .int (.int _) | .neg .int => true
  | .arith op .int => (Machine.arith? op).isSome
  | .dup _ | .swap | .pop _ => true
  | _ => false

end Unstack
