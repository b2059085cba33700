import Unstack.Recovery.Scratch

namespace Unstack

/-- The operation chooses between two ways to go on. -/
def Instr.isJump : Instr → Bool
  | .jumpCompare .. | .jumpZero .. => true
  | _ => false

namespace Scratch

variable {s s' : Scratch} {env : Setting} {pc : Nat}

@[simp] theorem pop_stmts (s : Scratch) : s.pop.2.stmts = s.stmts := by
  unfold pop
  split <;> rfl

@[simp] theorem popExpr_stmts (s : Scratch) : s.popExpr.2.stmts = s.stmts := s.pop_stmts

@[simp] theorem replaceTop_stmts (s : Scratch) (e : Expr) : (s.replaceTop e).stmts = s.stmts := by
  unfold replaceTop
  split <;> rfl

@[simp] theorem popExprs_stmts (count : Nat) (s : Scratch) : (popExprs count s).2.stmts = s.stmts := by
  induction count generalizing s with
  | zero => rfl
  | succ count ih => exact (ih s.popExpr.2).trans s.popExpr_stmts

@[simp] theorem popArgs_stmts (params : List JavaType) (s : Scratch) : (popArgs params s).2.stmts = s.stmts := by
  induction params generalizing s with
  | nil => rfl
  | cons t rest ih => exact (ih s.popExpr.2).trans s.popExpr_stmts

@[simp] theorem fieldTarget_stmts (field : FieldRef) (s : Scratch) : (s.fieldTarget field).2.stmts = s.stmts := by
  unfold fieldTarget
  split
  · rfl
  · exact s.popExpr_stmts

/-- Statements are added at the end, and none of them is a branch. -/
def Appends (s s' : Scratch) : Prop := ∃ more, s'.stmts = s.stmts ++ more ∧ ∀ stmt ∈ more, stmt.isBranch = false

theorem Appends.of_eq (same : s'.stmts = s.stmts) : s.Appends s' := ⟨[], by simp [same], nofun⟩

theorem emit_stmts {stmt : Stmt} (same : s'.stmts = s.stmts) : (s'.emit stmt).stmts = s.stmts ++ [stmt] :=
  congrArg (· ++ [stmt]) same

theorem Appends.emit {stmt : Stmt} (same : s'.stmts = s.stmts) (plain : stmt.isBranch = false) :
    s.Appends (s'.emit stmt) :=
  ⟨[stmt], emit_stmts same, by simpa using plain⟩

theorem finishCall_appends (method : MethodRef) (call : Expr) (same : s'.stmts = s.stmts) :
    s.Appends (s'.finishCall method call) := by
  unfold finishCall
  split
  · exact .emit same rfl
  · exact .of_eq same

theorem construct_appends (object : StackValue) (args : List Expr) (same : s'.stmts = s.stmts) :
    s.Appends (s'.construct object args) := by
  unfold construct
  split
  · split
    · exact .of_eq same
    · exact .emit same rfl
  · split
    · exact .of_eq same
    · exact .emit same rfl
  · exact .emit same rfl

/-- A call only adds statements, and no branch. -/
theorem invoke_appends (method : MethodRef) (direct : Bool) : s.Appends (s.invoke env method direct) := by
  have args := popArgs_stmts method.params.reverse s
  have object := (pop_stmts _).trans args
  unfold invoke
  simp only
  split
  · exact finishCall_appends method _ args
  split
  · split
    · exact construct_appends _ _ object
    split
    · exact finishCall_appends method _ object
    · exact finishCall_appends method _ object
  · split
    · exact .of_eq object
    · exact finishCall_appends method _ object

theorem store_appends (reg : Nat) : s.Appends (s.store env reg pc) := by
  have popped := s.pop_stmts
  unfold store
  simp only
  split
  · exact .of_eq ((pop_stmts _).trans popped)
  · split
    · split <;> exact .emit popped rfl
    · exact .emit popped rfl

theorem storeInto_appends (target : Expr) (value : StackValue) (same : s'.stmts = s.stmts) :
    s.Appends (s'.storeInto env target value) := by
  unfold storeInto
  split
  · exact .emit same rfl
  · split
    · exact .of_eq ((pop_stmts _).trans same)
    · split
      · exact .of_eq ((replaceTop_stmts _ _).trans same)
      · exact .emit same rfl

theorem storeElement_appends (run : s.storeElement env = .ok s') : s.Appends s' := by
  have popped : s.pop.2.popExpr.2.pop.2.stmts = s.stmts := by simp
  unfold storeElement at run
  simp only at run
  split at run
  · rename_i filled fills
    unfold fillElement? at fills
    obtain ⟨⟨t, dims, values⟩, _, fills⟩ := Option.bind_eq_some_iff.mp fills
    obtain ⟨i, _, fills⟩ := Option.bind_eq_some_iff.mp fills
    split at fills
    · obtain ⟨stack, _, fills⟩ := Option.bind_eq_some_iff.mp fills
      have chosen := Option.some.inj fills
      split at chosen <;> cases chosen <;> cases run
      exact .of_eq popped
    · cases fills
  · cases run
    exact storeInto_appends _ _ popped

theorem popStmt_appends (form : PopForm) : s.Appends (s.popStmt form) := by
  cases form with
  | pop => exact .emit s.popExpr_stmts rfl
  | pop2 =>
    refine ⟨[.expr s.popExpr.2.popExpr.1, .expr s.popExpr.1], ?_, by simp [Stmt.isBranch]⟩
    simp [popStmt, Scratch.emit]

theorem inc_appends (reg : Nat) (amount : Int) : s.Appends (s.inc env reg amount pc) := by
  have plain (target : Expr) : (incStmt target amount).isBranch = false := by
    unfold incStmt
    repeat' split
    all_goals rfl
  have either (isTop : Bool) (target : Expr) : s.Appends (if isTop && amount = 1 then s.replaceTop (.post .inc target)
      else if isTop && amount = -1 then s.replaceTop (.post .dec target) else s.emit (incStmt target amount)) := by
    split
    · exact .of_eq (replaceTop_stmts _ _)
    split
    · exact .of_eq (replaceTop_stmts _ _)
    · exact .emit rfl (plain _)
  exact either _ _

/-- Only a jump adds a branch, and it adds nothing else. -/
theorem execute_appends {instr : Instr} (run : s.execute env pc instr = .ok s') :
    s.Appends s' ∨ instr.isJump = true ∧ ∃ cond, s'.stmts = s.stmts ++ [.branch cond] := by
  cases instr with
  | jumpCompare t relation target =>
    cases run
    exact .inr ⟨rfl, _, emit_stmts ((popExpr_stmts _).trans s.popExpr_stmts)⟩
  | jumpZero t relation target =>
    cases run
    exact .inr ⟨rfl, _, emit_stmts s.popExpr_stmts⟩
  | arrayStore t => exact .inl (storeElement_appends run)
  | dup form =>
    simp only [execute, dup] at run
    split at run <;> cases run
    exact .inl (.of_eq rfl)
  | swap =>
    simp only [execute, swap] at run
    split at run <;> cases run
    exact .inl (.of_eq rfl)
  | pop form =>
    cases run
    exact .inl (popStmt_appends form)
  | put field =>
    cases run
    exact .inl (storeInto_appends _ _ ((fieldTarget_stmts field _).trans s.pop_stmts))
  | get field =>
    cases run
    exact .inl (.of_eq (fieldTarget_stmts field s))
  | inc t reg amount =>
    cases run
    exact .inl (inc_appends reg amount)
  | invoke method direct =>
    cases run
    exact .inl (invoke_appends method direct)
  | store t reg =>
    cases run
    exact .inl (store_appends reg)
  | leave t =>
    simp only [execute] at run
    split at run <;> cases run
    · exact .inl (.emit rfl rfl)
    · exact .inl (.emit s.popExpr_stmts rfl)
  | monitor action | raise =>
    cases run
    exact .inl (.emit s.popExpr_stmts rfl)
  | goto | enterSub | leaveSub | load | create | push =>
    cases run
    exact .inl (.of_eq rfl)
  | createArray t dims =>
    cases run
    exact .inl (.of_eq (popExprs_stmts dims s))
  | neg | arrayLength | cast | instanceOf | fillArray | switch =>
    cases run
    exact .inl (.of_eq s.popExpr_stmts)
  | arith | compare | arrayLoad =>
    cases run
    exact .inl (.of_eq ((popExpr_stmts _).trans s.popExpr_stmts))

end Scratch

end Unstack
