import Unstack.Proofs.Frame.Effect
import Unstack.Proofs.Recovery.Pending

namespace Unstack

open Unstack.Expr

variable {e : Expr} {amount : Int} {reg : Nat} {f : Word → Word → Word}

def Stmt.expr? : Stmt → Option Expr
  | expr e => some e
  | _ => none

/-- The expressions that became statements between two states, the last one first. -/
def Scratch.emitted (s s' : Scratch) : List Expr := (s'.stmts.drop s.stmts.length).reverse.filterMap Stmt.expr?

/-- The operation takes `s` to `s'` and changes the meaning of no expression that stays on the stack: statements
only overtake what they have nothing to do with, only expressions that can be evaluated twice are copied, and an
assignment only takes the place of a copy that has no effect of its own. -/
def Instr.Undisturbed (s s' : Scratch) (i : Instr) : Prop :=
  MayPrecede (s.emitted s') s'.exprs ∧
    match i with
    | .dup form =>
      Repeatable (s.exprs.take form.shape.1) ∧
        Independent (s.exprs.take form.shape.1) ((s.exprs.drop form.shape.1).take form.shape.2)
    | .swap => Independent (s.exprs.take 1) ((s.exprs.drop 1).take 1)
    | .store .. =>
      match s.stack with
      | value :: copy :: _ => copy.id = value.id → copy.expr.writes = []
      | _ => True
    | _ => True

instance (s s' : Scratch) (i : Instr) : Decidable (i.Undisturbed s s') := by
  unfold Instr.Undisturbed
  refine @instDecidableAnd _ _ _ ?_
  split
  · infer_instance
  · infer_instance
  · split
    · infer_instance
    · infer_instance
  · infer_instance

/-- The frames give integers no other type. -/
def Setting.TypesInts (env : Setting) (o : Operation) : Prop :=
  match o.instr with
  | .push .. => ∀ t, env.topType (o.pc + 1) = some t → t = .int ∨ t = .unknown
  | .store .. | .pop _ => env.topType o.pc ≠ some .returnAddress
  | _ => True

/-- What was reconstructed between two states makes of `σ` what the machine has reached. -/
def Reaches (σ : Store) (s s' : Scratch) (m' : Machine) : Prop :=
  ∃ stmts mid, s'.stmts = s.stmts ++ stmts ∧ Stmt.execAll stmts σ = some mid ∧ Pending mid s' m'

section Expressions

variable {σ mid σ' : Store} {a b : Word}

theorem Expr.eval_assign (x : String) (run : e.eval σ = some (a, σ')) :
    (Expr.assign (.var x) none e).eval σ = some (a, Function.update σ' x a) := by
  simp [Expr.eval, run]

theorem BinOp.onWords?_ofArith (op : Arith) : (BinOp.ofArith op).onWords? = Machine.arith? op := by
  cases op <;> rfl

theorem Expr.eq_int_of_intValue? {v : Int} (onInts : e.OnInts) (value : e.intValue? = some v) : e = .int v := by
  cases onInts with
  | int => simpa [Expr.intValue?] using value
  | _ => simp [Expr.intValue?] at value

theorem Expr.eq_var_of_same {x : String} (same : e.same (.var x)) : e = .var x := by
  cases e with
  | var y =>
    rw [Expr.same, beq_iff_eq] at same
    rw [same]
  | _ => exact absurd same Bool.false_ne_true

theorem Scratch.eval_arithExpr {op : Arith} {lhs rhs : Expr} (meaning : Machine.arith? op = some f)
    (runLhs : lhs.eval σ = some (a, mid)) (runRhs : rhs.eval mid = some (b, σ')) :
    (Scratch.arithExpr op lhs rhs).eval σ = some (f a b, σ') := by
  have binary : (Expr.binary (.ofArith op) lhs rhs).eval σ = some (f a b, σ') := by
    rw [← BinOp.onWords?_ofArith] at meaning
    simp [OnInts.eval_binary meaning, runLhs, runRhs]
  cases op with
  | xor =>
    rw [Scratch.arithExpr, Scratch.xorExpr]
    split
    · rename_i minusOne
      cases Expr.eq_int_of_intValue? (onInts_of_eval runRhs) minusOne
      cases runRhs
      cases meaning
      have complement : ~~~a = a ^^^ BitVec.ofInt 32 (-1) := BitVec.xor_allOnes.symm
      have flipped : (Expr.unary .bitNot lhs).eval σ = some (~~~a, mid) := by simp [Expr.eval, runLhs]
      rw [flipped, complement]
    · exact binary
  | _ => exact binary

theorem Scratch.eval_incStmt (x : String) (amount : Int) : ∃ e, Scratch.incStmt (.var x) amount = .expr e ∧
    ∀ σ, ∃ v, e.eval σ = some (v, Function.update σ x (σ x + BitVec.ofInt 32 amount)) := by
  unfold Scratch.incStmt
  split_ifs with up down less
  · subst up
    exact ⟨_, rfl, fun σ => ⟨_, rfl⟩⟩
  · subst down
    refine ⟨_, rfl, fun σ => ⟨σ x - 1, ?_⟩⟩
    rw [Expr.eval, BitVec.sub_eq_add_neg]
    rfl
  · refine ⟨_, rfl, fun σ => ⟨σ x - BitVec.ofInt 32 (-amount), ?_⟩⟩
    have minus : σ x - BitVec.ofInt 32 (-amount) = σ x + BitVec.ofInt 32 amount := by
      rw [BitVec.ofInt_neg, BitVec.sub_eq_add_neg, BitVec.neg_neg]
    rw [← minus]
    rfl
  · exact ⟨_, rfl, fun σ => ⟨_, rfl⟩⟩

/-- The operator that is written behind a variable to step it by `amount`. -/
def PostOp.Steps : PostOp → Int → Prop
  | inc, amount => amount = 1
  | dec, amount => amount = -1

theorem PostOp.Steps.eval {op : PostOp} (steps : op.Steps amount) (x : String) (σ : Store) :
    (Expr.post op (.var x)).eval σ = some (σ x, Function.update σ x (σ x + BitVec.ofInt 32 amount)) := by
  cases op with
  | inc =>
    cases steps
    rfl
  | dec =>
    cases steps
    rw [Expr.eval, BitVec.sub_eq_add_neg]
    rfl

end Expressions

namespace Pending

variable {env : Setting} {σ : Store} {s s' : Scratch} {m : Machine} {pc next : Nat} {rest : List StackValue}
  {stmts : List Stmt} {below : List Word} {regs : Nat → Word} {a : Word} {value : StackValue}

theorem reaches {m' : Machine} (pending : Pending σ s' m') (same : s'.stmts = s.stmts) : Reaches σ s s' m' :=
  ⟨[], σ, by rw [same, List.append_nil], rfl, pending⟩

theorem push {v : Word} (pending : Pending σ s m) (value : ∀ last, last.regs = m.regs → e.eval last = some (v, last)) :
    Pending σ (s.push e) { m with stack := v :: m.stack } := by
  have parts : Pending σ ⟨[] ++ s.stack, s.stmts, s.nextValue⟩ ⟨[] ++ m.stack, m.regs⟩ := pending
  refine parts.fold rfl fun mid last run final => ?_
  cases run
  exact ⟨mid, value mid final, final⟩

/-- The two uppermost values are combined as the machine does it. -/
theorem arith {op : Arith} {lhs rhs : StackValue} {b : Word}
    (pending : Pending σ ⟨rhs :: lhs :: rest, stmts, next⟩ ⟨b :: a :: below, regs⟩)
    (meaning : Machine.arith? op = some f) :
    Pending σ ⟨⟨next, Scratch.arithExpr op lhs.expr rhs.expr⟩ :: rest, stmts, next + 1⟩ ⟨f a b :: below, regs⟩ := by
  have parts : Pending σ ⟨[rhs, lhs] ++ rest, stmts, next⟩ ⟨[b, a] ++ below, regs⟩ := pending
  refine parts.fold rfl fun mid last run final => ?_
  obtain ⟨between, run, upper⟩ := evalStack_cons.mp run
  obtain ⟨_, bottom, lower⟩ := evalStack_cons.mp run
  cases bottom
  exact ⟨last, Scratch.eval_arithExpr meaning lower upper, final⟩

theorem neg {top : StackValue} (pending : Pending σ ⟨top :: rest, stmts, next⟩ ⟨a :: below, regs⟩) :
    Pending σ ⟨⟨next, .unary .neg top.expr⟩ :: rest, stmts, next + 1⟩ ⟨-a :: below, regs⟩ := by
  have parts : Pending σ ⟨[top] ++ rest, stmts, next⟩ ⟨[a] ++ below, regs⟩ := pending
  refine parts.fold rfl fun mid last run final => ?_
  obtain ⟨_, bottom, run⟩ := evalStack_cons.mp run
  cases bottom
  exact ⟨last, by simp [Expr.eval, run], final⟩

theorem assign (reg : Nat) (pending : Pending σ ⟨value :: rest, stmts, next⟩ ⟨a :: below, regs⟩) :
    Pending σ ⟨⟨next, .assign (.var (regName reg)) none value.expr⟩ :: rest, stmts, next + 1⟩
      ⟨a :: below, Function.update regs reg a⟩ := by
  have parts : Pending σ ⟨[value] ++ rest, stmts, next⟩ ⟨[a] ++ below, regs⟩ := pending
  refine parts.fold rfl fun mid last run final => ?_
  obtain ⟨_, bottom, run⟩ := evalStack_cons.mp run
  cases bottom
  exact ⟨_, Expr.eval_assign (regName reg) run, by rw [Store.regs_update, final]⟩

theorem assignCopy {copy : StackValue} {b : Word} (reg : Nat)
    (pending : Pending σ ⟨value :: copy :: rest, stmts, next⟩ ⟨a :: b :: below, regs⟩) (same : copy.id = value.id)
    (pure : copy.expr.writes = []) :
    Pending σ ⟨⟨next, .assign (.var (regName reg)) none value.expr⟩ :: rest, stmts, next + 1⟩
      ⟨b :: below, Function.update regs reg a⟩ := by
  have equal : b = a := pending.numbered.copy (copy.id, b) (by simp [Scratch.ids]) (value.id, a)
    (by simp [Scratch.ids]) same
  have parts : Pending σ ⟨[value, copy] ++ rest, stmts, next⟩ ⟨[a, b] ++ below, regs⟩ := pending
  refine parts.fold rfl fun mid last run final => ?_
  obtain ⟨between, dropped, run⟩ := evalStack_cons.mp run
  -- without the copy the value is evaluated from the same variables
  cases evalStack_pure (by simpa using pure) dropped
  rw [equal]
  exact ⟨_, Expr.eval_assign (regName reg) run, by rw [Store.regs_update, final]⟩

/-- A register that is stepped after it was pushed becomes one expression. -/
theorem stepTop {top : StackValue} {op : PostOp} (pending : Pending σ ⟨top :: rest, stmts, next⟩ ⟨a :: below, regs⟩)
    (isReg : top.expr = .var (regName reg)) (steps : op.Steps amount) :
    Pending σ ⟨{ top with expr := .post op (.var (regName reg)) } :: rest, stmts, next⟩
      ⟨a :: below, Function.update regs reg (regs reg + BitVec.ofInt 32 amount)⟩ := by
  refine pending.replaceTop fun mid last run final => ?_
  rw [isReg] at run
  cases run
  exact ⟨_, steps.eval (regName reg) mid, by rw [Store.regs_update, ← final]; rfl⟩

theorem exists_top (pending : Pending σ s m) (enough : 1 ≤ s.stack.length) : ∃ top rest stmts next v below regs,
    s = ⟨top :: rest, stmts, next⟩ ∧ m = ⟨v :: below, regs⟩ := by
  obtain ⟨stack, stmts, next⟩ := s
  obtain ⟨values, regs⟩ := m
  have length := pending.length
  obtain ⟨top, rest, rfl⟩ := List.exists_cons_of_length_pos enough
  obtain ⟨v, below, rfl⟩ := List.exists_cons_of_length_eq_add_one length
  exact ⟨top, rest, stmts, next, v, below, regs, rfl, rfl⟩

theorem exists_two (pending : Pending σ s m) (enough : 2 ≤ s.stack.length) : ∃ top second rest stmts next v w below regs,
    s = ⟨top :: second :: rest, stmts, next⟩ ∧ m = ⟨v :: w :: below, regs⟩ := by
  obtain ⟨top, rest, stmts, next, v, below, regs, rfl, rfl⟩ := pending.exists_top (by omega)
  have length := pending.length
  obtain ⟨second, rest, rfl⟩ := List.exists_cons_of_length_pos (Nat.le_of_succ_le_succ enough)
  obtain ⟨w, below, rfl⟩ := List.exists_cons_of_length_eq_add_one (Nat.succ.inj length)
  exact ⟨top, second, rest, stmts, next, v, w, below, regs, rfl, rfl⟩

theorem emitted_append (es : List Expr) (same : s'.stmts = s.stmts ++ es.reverse.map Stmt.expr) : s.emitted s' = es := by
  rw [Scratch.emitted, same, List.drop_left, ← List.map_reverse, List.reverse_reverse, List.filterMap_map]
  exact List.filterMap_some

variable {upper : List StackValue} {above : List Word} {regs' : Nat → Word}

theorem emits {es : List Expr} (pending : Pending σ ⟨upper ++ rest, stmts, next⟩ ⟨above ++ below, regs⟩)
    (lengths : above.length = upper.length) (result : s' = ⟨rest, stmts ++ es.reverse.map Stmt.expr, next⟩)
    (undisturbed : MayPrecede (Scratch.emitted ⟨upper ++ rest, stmts, next⟩ s') s'.exprs)
    (whole : ∀ mid last, evalStack (upper.map StackValue.expr) mid = some (above, last) → last.regs = regs →
      ∃ values last', evalStack es mid = some (values, last') ∧ last'.regs = regs') :
    Reaches σ ⟨upper ++ rest, stmts, next⟩ s' ⟨below, regs'⟩ := by
  subst result
  rw [emitted_append es rfl] at undisturbed
  obtain ⟨mid, run, kept⟩ := pending.emit lengths undisturbed whole
  exact ⟨_, mid, rfl, run, kept⟩

end Pending

theorem Scratch.store_eq {env : Setting} (unnamed : env.Unnamed) (reg pc : Nat) (value : StackValue)
    (rest : List StackValue) (stmts : List Stmt) (next : Nat) :
    (Scratch.mk (value :: rest) stmts next).store env reg pc =
      if rest.head?.map StackValue.id = some value.id then
        ⟨⟨next, .assign (.var (regName reg)) none value.expr⟩ :: rest.tail, stmts, next + 1⟩
      else ⟨rest, stmts ++ [.expr (.assign (.var (regName reg)) none value.expr)], next⟩ := by
  simp only [Scratch.store, Scratch.pop, unnamed.localAt, unnamed.varName, if_neg (regName_ne_this reg)]
  split_ifs with copied
  · cases rest with
    | nil => cases copied
    | cons copy rest => rfl
  · rfl

theorem Scratch.inc_cases {env : Setting} (unnamed : env.Unnamed) (reg pc : Nat) (amount : Int) (s : Scratch) :
    (∃ top rest op, s.stack = top :: rest ∧ top.expr = .var (regName reg) ∧ PostOp.Steps op amount ∧
      s.inc env reg amount pc = { s with stack := { top with expr := .post op (.var (regName reg)) } :: rest }) ∨
    s.inc env reg amount pc = s.emit (Scratch.incStmt (.var (regName reg)) amount) := by
  simp only [Scratch.inc, unnamed.regExpr]
  obtain ⟨_ | ⟨top, rest⟩, stmts, next⟩ := s
  · exact .inr rfl
  · simp only [Bool.and_eq_true, decide_eq_true_eq]
    split_ifs with up down
    · exact .inl ⟨top, rest, .inc, rfl, Expr.eq_var_of_same up.1, up.2, rfl⟩
    · exact .inl ⟨top, rest, .dec, rfl, Expr.eq_var_of_same down.1, down.2, rfl⟩
    · exact .inr rfl

theorem exists_append_of_le_length {α : Type} {n : Nat} {xs : List α} (enough : n ≤ xs.length) :
    ∃ upper rest, xs = upper ++ rest ∧ upper.length = n :=
  ⟨xs.take n, xs.drop n, (List.take_append_drop n xs).symm, List.length_take_of_le enough⟩

section Step

variable {env : Setting} {σ : Store} {s s' : Scratch} {m : Machine} {pc : Nat}

/-- The value that is stored becomes an assignment. -/
theorem Pending.store (pending : Pending σ s m) (unnamed : env.Unnamed) (enough : 1 ≤ s.stack.length)
    (undisturbed : (Instr.store .int reg).Undisturbed s (s.store env reg pc)) :
    ∃ m', m.step (.store .int reg) = some m' ∧ Reaches σ s (s.store env reg pc) m' := by
  obtain ⟨value, rest, stmts, next, a, below, regs, rfl, rfl⟩ := pending.exists_top enough
  refine ⟨_, rfl, ?_⟩
  rw [Scratch.store_eq unnamed] at undisturbed ⊢
  split_ifs at undisturbed ⊢ with copied
  · cases rest with
    | nil => cases copied
    | cons copy rest =>
      have same : copy.id = value.id := Option.some.inj copied
      obtain ⟨b, below, rfl⟩ := List.exists_cons_of_length_eq_add_one (Nat.succ.inj pending.length)
      exact (pending.assignCopy reg same (undisturbed.2 same)).reaches rfl
  · have parts : Pending σ ⟨[value] ++ rest, stmts, next⟩ ⟨[a] ++ below, regs⟩ := pending
    have result : [Stmt.expr (.assign (.var (regName reg)) none value.expr)] =
        [Expr.assign (.var (regName reg)) none value.expr].reverse.map Stmt.expr := rfl
    refine parts.emits rfl (by rw [result]) undisturbed.1 fun mid last run final => ?_
    obtain ⟨_, bottom, run⟩ := evalStack_cons.mp run
    cases bottom
    refine ⟨[a], _, evalStack_cons.mpr ⟨mid, rfl, Expr.eval_assign (regName reg) run⟩, ?_⟩
    rw [Store.regs_update, final]

theorem Pending.inc (pending : Pending σ s m) (unnamed : env.Unnamed)
    (undisturbed : (Instr.inc .int reg amount).Undisturbed s (s.inc env reg amount pc)) :
    Reaches σ s (s.inc env reg amount pc)
      { m with regs := Function.update m.regs reg (m.regs reg + BitVec.ofInt 32 amount) } := by
  rcases Scratch.inc_cases unnamed reg pc amount s with ⟨top, rest, op, stack, isReg, steps, result⟩ | result
  · obtain ⟨_, _, stmts, next, a, below, regs, rfl, rfl⟩ := pending.exists_top (by simp [stack])
    cases stack
    rw [result]
    exact (pending.stepTop isReg steps).reaches rfl
  · obtain ⟨e, isExpr, runs⟩ := Scratch.eval_incStmt (regName reg) amount
    rw [isExpr] at result
    have parts : Pending σ ⟨[] ++ s.stack, s.stmts, s.nextValue⟩ ⟨[] ++ m.stack, m.regs⟩ := pending
    have whole : s.emit (.expr e) = ⟨s.stack, s.stmts ++ [e].reverse.map Stmt.expr, s.nextValue⟩ := rfl
    refine parts.emits rfl (result.trans whole) undisturbed.1 fun mid last run final => ?_
    cases run
    obtain ⟨v, run⟩ := runs mid
    refine ⟨[v], _, evalStack_cons.mpr ⟨mid, rfl, run⟩, ?_⟩
    rw [Store.regs_update, ← final]
    rfl

theorem Pending.pop {form : PopForm} (pending : Pending σ s m) (enough : form.count ≤ s.stack.length)
    (undisturbed : (Instr.pop form).Undisturbed s (s.popStmt form)) :
    ∃ m', m.step (.pop form) = some m' ∧ Reaches σ s (s.popStmt form) m' := by
  cases form with
  | pop =>
    obtain ⟨top, rest, stmts, next, a, below, regs, rfl, rfl⟩ := pending.exists_top enough
    have parts : Pending σ ⟨[top] ++ rest, stmts, next⟩ ⟨[a] ++ below, regs⟩ := pending
    have whole : Scratch.popStmt .pop ⟨top :: rest, stmts, next⟩ =
        ⟨rest, stmts ++ [top.expr].reverse.map Stmt.expr, next⟩ := rfl
    exact ⟨_, rfl, parts.emits rfl whole undisturbed.1 fun mid last run final => ⟨[a], last, run, final⟩⟩
  | pop2 =>
    obtain ⟨top, second, rest, stmts, next, a, b, below, regs, rfl, rfl⟩ := pending.exists_two enough
    have parts : Pending σ ⟨[top, second] ++ rest, stmts, next⟩ ⟨[a, b] ++ below, regs⟩ := pending
    have whole : Scratch.popStmt .pop2 ⟨top :: second :: rest, stmts, next⟩ =
        ⟨rest, stmts ++ [top.expr, second.expr].reverse.map Stmt.expr, next⟩ := by
      simp [Scratch.popStmt, Scratch.popExpr, Scratch.pop, Scratch.emit]
    exact ⟨_, rfl, parts.emits rfl whole undisturbed.1 fun mid last run final => ⟨[a, b], last, run, final⟩⟩

theorem Pending.swap (pending : Pending σ s m) (run : s.swap = .ok s')
    (undisturbed : Instr.swap.Undisturbed s s') : ∃ m', m.step .swap = some m' ∧ Reaches σ s s' m' := by
  have enough : 2 ≤ s.stack.length := by
    unfold Scratch.swap at run
    split at run
    · rename_i stack
      simp [stack]
    · cases run
  obtain ⟨top, second, rest, stmts, next, a, b, below, regs, rfl, rfl⟩ := pending.exists_two enough
  cases run
  have parts : Pending σ ⟨[top] ++ ([second] ++ rest), stmts, next⟩ ⟨[a] ++ ([b] ++ below), regs⟩ := pending
  exact ⟨_, rfl, (parts.exchange rfl rfl undisturbed.2).reaches rfl⟩

theorem Pending.dup {form : DupForm} (pending : Pending σ s m) (run : s.dup form = .ok s')
    (undisturbed : (Instr.dup form).Undisturbed s s') : ∃ m', m.step (.dup form) = some m' ∧ Reaches σ s s' m' := by
  obtain ⟨stack, stmts, next⟩ := s
  obtain ⟨values, regs⟩ := m
  simp only [Scratch.dup] at run
  split_ifs at run with short
  cases run
  obtain ⟨upper, others, rfl, count⟩ := exists_append_of_le_length (Nat.le_trans (Nat.le_add_right _ _) (not_lt.mp short))
  rw [List.length_append, count, Nat.add_lt_add_iff_left, not_lt] at short
  obtain ⟨between, rest, rfl, skipped⟩ := exists_append_of_le_length short
  have length := pending.length
  simp only [List.length_append] at length
  have room : upper.length ≤ values.length := by omega
  obtain ⟨above, others, rfl, lengths⟩ := exists_append_of_le_length room
  have room' : between.length ≤ others.length := by
    rw [List.length_append] at length
    omega
  obtain ⟨middle, below, rfl, lengths'⟩ := exists_append_of_le_length room'
  obtain ⟨_, repeatable, independent⟩ := undisturbed
  simp only [Scratch.exprs, List.map_append, ← count, ← skipped] at repeatable independent
  rw [List.take_left' (List.length_map _)] at repeatable
  rw [List.take_left' (List.length_map _), List.drop_left' (List.length_map _),
    List.take_left' (List.length_map _)] at independent
  rw [← count, ← skipped, dupStack_append]
  refine ⟨_, ?_, (pending.copy lengths lengths' repeatable independent).reaches rfl⟩
  rw [Machine.step, Machine.dup_append (lengths.trans count) (lengths'.trans skipped)]
  rfl

/-- A copy that is stored at once needs no condition: the value is evaluated once. -/
theorem Pending.storeCopy {copied : Scratch} (pending : Pending σ s m) (unnamed : env.Unnamed) (reg : Nat)
    (enough : 1 ≤ s.stack.length) (run : s.dup .dup = .ok copied) :
    ∃ between m', m.step (.dup .dup) = some between ∧ between.step (.store .int reg) = some m' ∧
      Reaches σ s (copied.store env reg pc) m' := by
  obtain ⟨value, rest, stmts, next, a, below, regs, rfl, rfl⟩ := pending.exists_top enough
  have twice : (Scratch.mk (value :: rest) stmts next).dup .dup = .ok ⟨value :: value :: rest, stmts, next⟩ := by
    simp [Scratch.dup, DupForm.shape, dupStack]
  cases run.symm.trans twice
  refine ⟨_, _, rfl, rfl, ?_⟩
  rw [Scratch.store_eq unnamed, if_pos (by rfl)]
  exact (pending.assign reg).reaches rfl

/-- One operation on words: the expressions follow the machine. -/
theorem Pending.step {o : Operation} (pending : Pending σ s m) (unnamed : env.Unnamed) (onInts : o.instr.onInts)
    (typed : env.TypesInts o) (enough : o.instr.takes ≤ s.stack.length)
    (run : s.execute env o.pc o.instr = .ok s') (undisturbed : o.instr.Undisturbed s s') :
    ∃ m', m.step o.instr = some m' ∧ Reaches σ s s' m' := by
  obtain ⟨pc, opcode, line, i⟩ := o
  dsimp only at *
  fun_cases Instr.onInts i with
  | case1 reg =>
    cases run
    refine ⟨_, rfl, (pending.push fun last final => ?_).reaches rfl⟩
    rw [unnamed.regExpr, ← final]
    rfl
  | case2 reg =>
    cases run
    exact pending.store unnamed enough undisturbed
  | case3 reg amount =>
    cases run
    exact ⟨_, rfl, pending.inc unnamed undisturbed⟩
  | case4 v =>
    have literal : s.execute env pc (.push .int (.int v)) = .ok (s.push (.int v)) := by
      rw [Scratch.execute]
      cases top : env.topType (pc + 1) with
      | none => rfl
      | some t =>
        rcases typed t top with rfl | rfl
        · rfl
        · rfl
    rw [literal] at run
    cases run
    exact ⟨_, rfl, (pending.push fun last final => rfl).reaches rfl⟩
  | case5 =>
    obtain ⟨top, rest, stmts, next, a, below, regs, rfl, rfl⟩ := pending.exists_top enough
    cases run
    exact ⟨_, rfl, pending.neg.reaches rfl⟩
  | case6 op =>
    obtain ⟨rhs, lhs, rest, stmts, next, b, a, below, regs, rfl, rfl⟩ := pending.exists_two enough
    obtain ⟨f, meaning⟩ := Option.isSome_iff_exists.mp onInts
    cases run
    exact ⟨_, by simp only [Machine.step, meaning], (pending.arith meaning).reaches rfl⟩
  | case7 form => exact pending.dup run undisturbed
  | case8 => exact pending.swap run undisturbed
  | case9 form =>
    cases run
    exact pending.pop enough undisturbed
  | case10 => simp_all [Instr.onInts]

end Step

end Unstack
