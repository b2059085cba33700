import Unstack.Proofs.Graph.Edit
import Unstack.Proofs.Recovery.Step

namespace Unstack

open Unstack.Expr

variable {o : Operation}

/-- Executing all of `ops` on expressions takes `s` to `s'`, and each finds the values that it takes. -/
def Consumes (env : Setting) : List Operation → Scratch → Scratch → Prop
  | [], s, s' => s' = s
  | o :: rest, s, s' =>
    o.instr.takes ≤ s.stack.length ∧ ∃ mid, s.execute env o.pc o.instr = .ok mid ∧ Consumes env rest mid s'

/-- No operation changes the meaning of an expression that stays on the stack. Any value can be copied if the copy
is stored at once, since one assignment takes the place of both. -/
def undisturbed (env : Setting) : List Operation → Scratch → Bool
  | [], _ => true
  | ⟨_, _, _, .dup .dup⟩ :: ⟨pc, _, _, .store _ reg⟩ :: rest, s =>
    match s.dup .dup with
    | .ok copied => undisturbed env rest (copied.store env reg pc)
    | .error _ => true
  | o :: rest, s =>
    match s.execute env o.pc o.instr with
    | .ok s' => decide (o.instr.Undisturbed s s') && undisturbed env rest s'
    | .error _ => true

theorem Stmt.execAll_append {stmts stmts' : List Stmt} {σ mid : Store} (run : execAll stmts σ = some mid) :
    execAll (stmts ++ stmts') σ = execAll stmts' mid := by
  unfold execAll at run ⊢
  rw [List.foldlM_append, run]
  rfl

section Run

variable {env : Setting} {σ : Store} {s s' : Scratch} {m : Machine} {ops : List Operation}

theorem Reaches.trans {mid : Scratch} (reaches : Reaches σ s mid m)
    (next : ∀ τ, Pending τ mid m → ∃ m', m.run ops = some m' ∧ Reaches τ mid s' m') :
    ∃ m', m.run ops = some m' ∧ Reaches σ s s' m' := by
  obtain ⟨stmts, τ, added, run, pending⟩ := reaches
  obtain ⟨m', steps, stmts', τ', added', run', pending'⟩ := next τ pending
  refine ⟨m', steps, stmts ++ stmts', τ', ?_, (Stmt.execAll_append run).trans run', pending'⟩
  rw [added', added, List.append_assoc]

theorem Machine.run_cons {m' : Machine} (step : m.step o.instr = some m') : m.run (o :: ops) = m'.run ops := by
  rw [Machine.run, List.foldlM_cons, step]
  rfl

theorem Instr.eq_int_of_onInts_store {t : JavaType} {reg : Nat} (onInts : (Instr.store t reg).onInts) : t = .int := by
  cases t with
  | int => rfl
  | _ => cases onInts

/-- By induction on the operations: machine and statements agree. -/
theorem Pending.run (pending : Pending σ s m) (unnamed : env.Unnamed) (onInts : ∀ o ∈ ops, o.instr.onInts)
    (typed : ∀ o ∈ ops, env.TypesInts o) (consumes : Consumes env ops s s') (calm : undisturbed env ops s) :
    ∃ m', m.run ops = some m' ∧ Reaches σ s s' m' := by
  -- the cases are those of `undisturbed`, which takes a copy and its store together
  fun_induction undisturbed env ops s generalizing σ m with
  | case1 =>
    cases consumes
    exact ⟨m, rfl, pending.reaches rfl⟩
  | case2 pc₁ opcode₁ line₁ pc opcode line t reg rest s copied copies ih =>
    have isInt : t = .int :=
      Instr.eq_int_of_onInts_store (onInts ⟨pc, opcode, line, .store t reg⟩ (.tail _ (.head _)))
    obtain ⟨enough, _, copies', _, mid, stored, consumes⟩ := consumes
    cases copies.symm.trans copies'
    cases stored
    obtain ⟨between, m₁, first, second, reaches⟩ := pending.storeCopy unnamed reg enough copies
    rw [Machine.run_cons first, isInt, Machine.run_cons second]
    exact reaches.trans fun τ pending => ih pending (fun o member => onInts o (by simp [member]))
      (fun o member => typed o (by simp [member])) consumes calm
  | case3 _ _ _ _ _ _ _ _ _ _ _ failed =>
    obtain ⟨_, _, run, _⟩ := consumes
    cases failed.symm.trans run
  | case4 o rest s _ mid run ih =>
    obtain ⟨enough, mid', run', consumes⟩ := consumes
    cases run.symm.trans run'
    obtain ⟨here, later⟩ := Bool.and_eq_true_iff.mp calm
    obtain ⟨m₁, first, reaches⟩ := pending.step unnamed (onInts o (.head _)) (typed o (.head _))
      enough run (of_decide_eq_true here)
    rw [Machine.run_cons first]
    exact reaches.trans fun τ pending => ih pending (fun o member => onInts o (.tail _ member))
      (fun o member => typed o (.tail _ member)) consumes later
  | case5 _ _ _ _ _ failed =>
    obtain ⟨_, _, run, _⟩ := consumes
    cases failed.symm.trans run

end Run

namespace Graph

variable {plan : Plan} {env : Setting} {b : BlockId} {g g' : Graph} {block : Block}

theorem block_of_modifyBlock {change : Block → Block} (found : g.blocks[b]? = some block)
    (run : g.modifyBlock b change = .ok g') : g'.blocks[b]? = some (change block) ∧ g'.nextValue = g.nextValue := by
  have inside := found.lt_size
  rw [modifyBlock_eq inside] at run
  cases run
  exact ⟨by simp [Array.getElem?_modify, found], rfl⟩

theorem movesReturnAddress_eq_false (onInts : o.instr.onInts) (typed : env.TypesInts o) :
    movesReturnAddress env o = false := by
  obtain ⟨pc, opcode, line, i⟩ := o
  cases i with
  | store t reg => simpa [movesReturnAddress, Setting.TypesInts] using typed
  | pop form => simpa [movesReturnAddress, Setting.TypesInts] using typed
  | enterSub => cases onInts
  | _ => rfl

theorem executeOp_execute (found : g.blocks[b]? = some block) (onInts : o.instr.onInts)
    (run : g.executeOp plan env b o = .ok g') :
    ∃ s block', (g.scratch block).execute env o.pc o.instr = .ok s ∧ g'.blocks[b]? = some block' ∧
      g'.scratch block' = s ∧ block'.ops = block.ops := by
  unfold executeOp at run
  rw [block_eq_ok.mpr found, ok_bind] at run
  obtain ⟨s, executed, run⟩ := bind_eq_ok.mp run
  obtain ⟨g₁, put, run⟩ := bind_eq_ok.mp run
  have last : g₁ = g' := by
    split at run
    · rename_i isSwitch
      rw [isSwitch] at onInts
      cases onInts
    · cases run
      rfl
  subst last
  have numbered : { g with nextValue := s.nextValue }.blocks[b]? = some block := found
  obtain ⟨found', next⟩ := block_of_modifyBlock numbered put
  exact ⟨s, _, executed, found', by rw [scratch, next], rfl⟩

theorem executeOps_consumes {ops : List Operation} {d d' : Draft} (found : d.graph.blocks[b]? = some block)
    (remaining : block.ops = ops) (onInts : ∀ o ∈ ops, o.instr.onInts) (typed : ∀ o ∈ ops, env.TypesInts o)
    (run : executeOps plan env b ops d = .ok (true, d')) :
    ∃ block', d'.graph.blocks[b]? = some block' ∧ block'.ops = [] ∧
      Consumes env ops (d.graph.scratch block) (d'.graph.scratch block') := by
  induction ops generalizing d block with
  | nil =>
    cases run
    exact ⟨block, found, remaining, rfl⟩
  | cons o rest ih =>
    have isInt := onInts o (.head _)
    rw [executeOps, movesReturnAddress_eq_false isInt (typed o (.head _)), block_eq_ok.mpr found] at run
    simp only [Bool.false_eq_true, if_false, ok_bind] at run
    split_ifs at run with short
    · cases run
    · obtain ⟨g₁, set, run⟩ := bind_eq_ok.mp run
      obtain ⟨g₂, executed, run⟩ := bind_eq_ok.mp run
      obtain ⟨_, _, run⟩ := bind_eq_ok.mp run
      obtain ⟨found₁, next⟩ := block_of_modifyBlock found set
      obtain ⟨s, block₂, step, found₂, same, remaining₂⟩ := executeOp_execute found₁ isInt executed
      obtain ⟨block', found', done, consumes⟩ := ih found₂ remaining₂
        (fun o member => onInts o (.tail _ member))
        (fun o member => typed o (.tail _ member)) run
      refine ⟨block', found', done, not_lt.mp short, s, ?_, by rwa [← same]⟩
      rw [scratch, next] at step
      exact step

/-- Statements and stack of a converted block have the meaning of its operations. -/
theorem convert_faithful {d d' : Draft} (found : d.graph.blocks[b]? = some block) (isStatic : d.graph.info.isStatic)
    (noLocals : d.graph.info.locals = []) (noHandler : d.graph.isHandler b = .ok false) (empty : block.stack = [])
    (onInts : ∀ o ∈ block.ops, o.instr.onInts) (typed : ∀ o ∈ block.ops, (plan.setting d.graph).TypesInts o)
    (calm : undisturbed (plan.setting d.graph) block.ops (d.graph.scratch block))
    (complete : convert plan b d = .ok (true, d')) :
    ∃ block' stmts, d'.graph.blocks[b]? = some block' ∧ block'.ops = [] ∧ block'.stmts = block.stmts ++ stmts ∧
      ∀ σ : Store, ∃ mid σ' values, Stmt.execAll stmts σ = some mid ∧
        evalStack (block'.stack.map StackValue.expr) mid = some (values, σ') ∧
        Machine.run block.ops ⟨[], σ.regs⟩ = some ⟨values, σ'.regs⟩ := by
  have entered : d.graph.enterHandler (plan.setting d.graph) b = .ok d.graph := by
    rw [enterHandler, block_eq_ok.mpr found, ok_bind, noHandler]
    rfl
  have run : executeOps plan (plan.setting d.graph) b block.ops d = .ok (true, d') := by
    simpa only [convert, entered, ok_bind, block_eq_ok.mpr found] using complete
  obtain ⟨block', found', done, consumes⟩ := executeOps_consumes found rfl onInts typed run
  have faithful (σ : Store) : ∃ m', Machine.run block.ops ⟨[], σ.regs⟩ = some m' ∧
      Reaches σ (d.graph.scratch block) (d'.graph.scratch block') m' := by
    have start : Pending σ (d.graph.scratch block) ⟨[], σ.regs⟩ :=
      { evaluates := ⟨σ, by rw [Scratch.exprs, scratch, empty]; rfl, rfl⟩
        numbered := ⟨by simp, by simp⟩ }
    exact start.run ⟨isStatic, noLocals⟩ onInts typed consumes calm
  -- the statements do not depend on the variables, so any variables give them
  obtain ⟨_, _, stmts, _, added, _, _⟩ := faithful fun _ => 0
  refine ⟨block', stmts, found', done, added, fun σ => ?_⟩
  obtain ⟨m', steps, stmts', mid, added', run', pending⟩ := faithful σ
  obtain ⟨σ', values, regs⟩ := pending.evaluates
  cases List.append_cancel_left (added.symm.trans added')
  exact ⟨mid, σ', m'.stack, run', values, by rw [steps, regs]⟩

def numbered (instrs : List Instr) : List Operation := instrs.zipIdx.map fun p => ⟨p.2, 0, -1, p.1⟩

def lone (instrs : List Instr) : Block :=
  { pc := 0, line := -1, ops := numbered instrs, stmts := [], stack := [], postorder := 0, ins := [], outs := [],
    unreconstructed := false, removed := false }

/-- A graph of one block, in a static method without debug names. -/
def single (instrs : List Instr) : Graph :=
  { Graph.empty (MethodInfo.plain "single" 4 4) (numbered instrs) with blocks := #[lone instrs] }

theorem single_typesInts (instrs : List Instr) (o : Operation) : (plan.setting (single instrs)).TypesInts o := by
  have unknown (pc : Nat) : (plan.setting (single instrs)).topType pc = none := by
    simp only [Setting.topType, Plan.setting, single, Graph.empty, Array.getElem?_replicate]
    split <;> rfl
  unfold Setting.TypesInts
  split <;> simp [unknown]

/-- Steps a register behind its use, stores a copy that has an effect, and adds to a register while the value of
another one is on the stack. -/
def accumulate : List Instr :=
  [.load .int 0, .inc .int 0 1, .load .int 1, .arith .mul .int, .dup .dup, .store .int 2, .push .int (.int (-1)),
    .arith .xor .int, .store .int 3, .load .int 1, .inc .int 0 (-3), .load .int 2, .swap]

theorem convert_faithful_accumulate : ∃ d' block' stmts,
    convert ⟨.none, {}⟩ 0 ⟨single accumulate, []⟩ = .ok (true, d') ∧
    d'.graph.blocks[0]? = some block' ∧ block'.ops = [] ∧ block'.stmts = stmts ∧ ∀ σ : Store, ∃ mid σ' values,
      Stmt.execAll stmts σ = some mid ∧ evalStack (block'.stack.map StackValue.expr) mid = some (values, σ') ∧
      Machine.run (numbered accumulate) ⟨[], σ.regs⟩ = some ⟨values, σ'.regs⟩ := by
  obtain ⟨d', complete⟩ : ∃ d', convert ⟨.none, {}⟩ 0 ⟨single accumulate, []⟩ = .ok (true, d') := ⟨_, by rfl⟩
  have found : (single accumulate).blocks[0]? = some (lone accumulate) := rfl
  obtain ⟨block', stmts, faithful⟩ := convert_faithful found rfl rfl rfl rfl (by decide)
    (fun o _ => single_typesInts accumulate o) (by decide) complete
  exact ⟨d', block', stmts, complete, faithful⟩

def overtaken : List Instr := [.load .int 0, .load .int 1, .inc .int 0 1, .arith .add .int]

/-- A register that is stepped while its old value lies below another value is read too late: the sum of two
registers that are zero becomes one. -/
theorem convert_overtakes_read : ∃ d' block' mid σ' regs,
    convert ⟨.none, {}⟩ 0 ⟨single overtaken, []⟩ = .ok (true, d') ∧ d'.graph.blocks[0]? = some block' ∧
    Stmt.execAll block'.stmts (fun _ => 0) = some mid ∧
    evalStack (block'.stack.map StackValue.expr) mid = some ([1], σ') ∧
    Machine.run (numbered overtaken) ⟨[], fun _ => 0⟩ = some ⟨[0], regs⟩ :=
  ⟨_, _, _, _, _, by rfl, by rfl, by rfl, by rfl, by rfl⟩

end Graph

end Unstack
