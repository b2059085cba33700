import Unstack.Proofs.Graph.Content
import Unstack.Proofs.Recovery.Faithful

namespace Unstack

/-- The operation works on one block alone, and on no return address. -/
def Instr.isPlain : Instr → Bool
  | .store .. | .pop _ | .enterSub _ | .switch .. => false
  | _ => true

theorem Consumes.append {env : Setting} {ops ops' : List Operation} {s mid s' : Scratch} (first : Consumes env ops s mid)
    (second : Consumes env ops' mid s') : Consumes env (ops ++ ops') s s' := by
  induction ops generalizing s with
  | nil =>
    cases first
    exact second
  | cons o rest ih =>
    obtain ⟨enough, next, run, first⟩ := first
    exact ⟨enough, next, run, ih first⟩

theorem Consumes.cons {env : Setting} {o : Operation} {i : Instr} {rest : List Operation} {s mid s' : Scratch}
    (code : o.instr = i) (enough : i.takes ≤ s.stack.length) (run : s.execute env o.pc i = .ok mid)
    (later : Consumes env rest mid s') : Consumes env (o :: rest) s s' := by
  subst code
  exact ⟨enough, mid, run, later⟩

namespace Graph

variable {plan : Plan} {env : Setting} {b : BlockId} {g : Graph} {block : Block}

theorem movesReturnAddress_of_isPlain {o : Operation} (plain : o.instr.isPlain = true) :
    movesReturnAddress env o = false := by
  unfold movesReturnAddress
  cases code : o.instr with
  | store | pop | enterSub => simp [code, Instr.isPlain] at plain
  | _ => rfl

theorem executeOp_of_execute {o : Operation} {s : Scratch} (found : g.blocks[b]? = some block)
    (plain : o.instr.isPlain = true) (run : (g.scratch block).execute env o.pc o.instr = .ok s) :
    ∃ g', g.executeOp plan env b o = .ok g' ∧ g'.nextValue = s.nextValue ∧
      g'.blocks[b]? = some { block with stack := s.stack, stmts := s.stmts } := by
  have present := found.lt_size
  have numbered : { g with nextValue := s.nextValue }.blocks[b]? = some block := found
  have put : g.putScratch b s = .ok ({ g with nextValue := s.nextValue }.altered b fun block =>
      { block with stack := s.stack, stmts := s.stmts }) := if_pos present
  have found' := altered_self numbered fun block => { block with stack := s.stack, stmts := s.stmts }
  refine ⟨_, ?_, rfl, found'⟩
  simp only [executeOp, block_eq_ok.mpr found, ok_bind, run, put]
  split
  · rename_i isSwitch
    rw [isSwitch] at plain
    cases plain
  · rfl

/-- Operations that succeed on the state of a block are executed. -/
theorem executeOps_of_consumes (plan : Plan) {ops : List Operation} {d : Draft} {s' : Scratch}
    (found : d.graph.blocks[b]? = some block) (remaining : block.ops = ops) (plain : ∀ o ∈ ops, o.instr.isPlain = true)
    (consumes : Consumes env ops (d.graph.scratch block) s') :
    ∃ d' block', executeOps plan env b ops d = .ok (true, d') ∧ d'.graph.blocks[b]? = some block' ∧ block'.ops = [] ∧
      block'.stack = s'.stack ∧ block'.stmts = s'.stmts := by
  induction ops generalizing d block with
  | nil =>
    cases consumes
    exact ⟨d, block, rfl, found, remaining, rfl, rfl⟩
  | cons o rest ih =>
    obtain ⟨enough, mid, run, consumes⟩ := consumes
    obtain ⟨here, later⟩ := List.forall_mem_cons.mp plain
    have present := found.lt_size
    have set : d.graph.setOps b rest = .ok (d.graph.altered b fun block => { block with ops := rest }) :=
      modifyBlock_eq present _
    have found₁ := altered_self found fun block => { block with ops := rest }
    obtain ⟨g₂, executed, next, found₂⟩ := @executeOp_of_execute plan env b _ _ o mid found₁ here run
    obtain ⟨d', block', last, result⟩ := @ih _ ⟨g₂, d.notes ++ balanceNote o block.stack.length mid.stack.length⟩ found₂
      rfl later (by rwa [scratch, next])
    refine ⟨d', block', ?_, result⟩
    rw [executeOps, movesReturnAddress_of_isPlain here, block_eq_ok.mpr found]
    have deep : ¬ block.stack.length < o.instr.takes := Nat.not_lt.mpr enough
    simpa only [Bool.false_eq_true, if_false, ok_bind, if_neg deep, set, executed, block_eq_ok.mpr found₂] using last

/-- A block whose operations are all consumed is converted. -/
theorem convert_of_consumes {ops : List Operation} {d : Draft} {s' : Scratch} (found : d.graph.blocks[b]? = some block)
    (remaining : block.ops = ops) (noHandler : d.graph.isHandler b = .ok false)
    (plain : ∀ o ∈ ops, o.instr.isPlain = true) (consumes : Consumes (plan.setting d.graph) ops (d.graph.scratch block) s') :
    ∃ d' block', convert plan b d = .ok (true, d') ∧ d'.graph.blocks[b]? = some block' ∧ block'.ops = [] ∧
      block'.stack = s'.stack ∧ block'.stmts = s'.stmts := by
  have entered : d.graph.enterHandler (plan.setting d.graph) b = .ok d.graph := by
    rw [enterHandler, block_eq_ok.mpr found, ok_bind, noHandler]
    rfl
  obtain ⟨d', block', executed, result⟩ := executeOps_of_consumes plan found remaining plain consumes
  refine ⟨d', block', ?_, result⟩
  simpa only [convert, entered, ok_bind, block_eq_ok.mpr found, remaining] using executed

end Graph

/-- The last value that was stored at a position, zero if there is none. -/
def lastStored (stores : List (Nat × Int)) (position : Nat) : Int := (stores.reverse.lookup position).getD 0

/-- The elements of an array of length `n` after some stores. -/
def elementsAfter (n : Nat) (stores : List (Nat × Int)) : List Expr :=
  (List.range n).map fun position => .int (lastStored stores position)

theorem lastStored_append (stores : List (Nat × Int)) (i : Nat) (v : Int) (position : Nat) :
    lastStored (stores ++ [(i, v)]) position = if position = i then v else lastStored stores position := by
  unfold lastStored
  rw [List.reverse_append, List.reverse_singleton, List.singleton_append, List.lookup_cons]
  by_cases same : position = i
  · simp [same]
  · simp [same, beq_false_of_ne same]

theorem elementsAfter_nil (n : Nat) : elementsAfter n [] = List.replicate n (.int 0) := by
  simp [elementsAfter, lastStored, List.map_const']

theorem elementsAfter_append (n : Nat) (stores : List (Nat × Int)) (i : Nat) (v : Int) :
    elementsAfter n (stores ++ [(i, v)]) = (elementsAfter n stores).set i (.int v) := by
  apply List.ext_getElem?
  intro position
  simp only [elementsAfter, lastStored_append, List.getElem?_set, List.getElem?_map, List.length_map, List.length_range]
  by_cases inside : position < n
  · by_cases same : i = position
    · simp [same, inside]
    · simp [same, inside, Ne.symm same]
  · simp [inside]
    omega

/-- The new array as it is written after some stores. -/
def arrayAfter (n : Nat) (stores : List (Nat × Int)) : Expr :=
  if stores.isEmpty then .newArray .int [.int n] else .filledArray .int [.int n] (elementsAfter n stores)

theorem arrayAfter_append (n : Nat) (stores : List (Nat × Int)) (i : Nat) (v : Int) :
    arrayAfter n (stores ++ [(i, v)]) = .filledArray .int [.int n] ((elementsAfter n stores).set i (.int v)) := by
  simp [arrayAfter, elementsAfter_append]

/-- A value is stored at a position of the array on top of the stack, which stays there. -/
def storeCode (store : Nat × Int) : List Instr :=
  [.dup .dup, .push .int (.int store.1), .push .int (.int store.2), .arrayStore .int]

/-- A new array is made, and some values are stored in it. -/
def arrayCode (n : Nat) (stores : List (Nat × Int)) : List Instr :=
  .push .int (.int n) :: .createArray .int 1 :: stores.flatMap storeCode

/-- The statement that stores a value in an array. -/
def storeStmt (array : Expr) (store : Nat × Int) : Stmt := .expr (.assign (.index array (.int store.1)) none (.int store.2))

namespace Scratch

variable {env : Setting} {n i id next : Nat} {v : Int} {e : Expr} {stores : List (Nat × Int)} {below : List StackValue}
  {stmts : List Stmt} {ops : List Operation} {s' : Scratch}

theorem execute_push_int {o : Operation} (code : o.instr = .push .int (.int v)) (typed : env.TypesInts o) (s : Scratch) :
    s.execute env o.pc (.push .int (.int v)) = .ok (s.push (.int v)) := by
  rw [Setting.TypesInts, code] at typed
  rw [execute]
  cases top : env.topType (o.pc + 1) with
  | none => rfl
  | some t => rcases typed t top with rfl | rfl <;> rfl

theorem arrayContents?_arrayAfter (short : n ≤ greatestInitializer) (stores : List (Nat × Int)) :
    arrayContents? (arrayAfter n stores) = some (.int, [.int n], elementsAfter n stores) := by
  have length : (elementsAfter n stores).length = n := by simp [elementsAfter]
  unfold arrayAfter
  split
  · rename_i none
    rw [List.isEmpty_iff.mp none, elementsAfter_nil]
    simp [arrayContents?, Expr.intValue?, Expr.initial, short]
  · simp [arrayContents?, length, short]

/-- A store into an array that is not too long changes what is written for its copy. -/
theorem storeElement_fills (short : n ≤ greatestInitializer) (inside : i < n) (position value : Nat) :
    storeElement env
      ⟨⟨value, .int v⟩ :: ⟨position, .int i⟩ :: ⟨id, arrayAfter n stores⟩ :: ⟨id, arrayAfter n stores⟩ :: below, stmts, next⟩ =
      .ok ⟨⟨id, arrayAfter n (stores ++ [(i, v)])⟩ :: below, stmts, next⟩ := by
  have length : (elementsAfter n stores).length = n := by simp [elementsAfter]
  have filled : fillElement? ⟨id, arrayAfter n stores⟩ (.int i) (.int v) ⟨⟨id, arrayAfter n stores⟩ :: below, stmts, next⟩ =
      some (.ok ⟨⟨id, arrayAfter n (stores ++ [(i, v)])⟩ :: below, stmts, next⟩) := by
    simp [fillElement?, arrayContents?_arrayAfter short, Expr.intValue?, length, inside, changeValue, arrayAfter_append]
  simp [storeElement, pop, popExpr, filled]

/-- A store into an array that is too long stays a statement. -/
theorem storeElement_keeps (long : greatestInitializer < n) {position value : Nat} (other : id ≠ value) :
    storeElement env
      ⟨⟨value, .int v⟩ :: ⟨position, .int i⟩ :: ⟨id, .newArray .int [.int n]⟩ :: ⟨id, .newArray .int [.int n]⟩ :: below, stmts,
        next⟩ =
      .ok ⟨⟨id, .newArray .int [.int n]⟩ :: below,
        stmts ++ [storeStmt (.newArray .int [.int n]) (i, v)], next⟩ := by
  have none : fillElement? ⟨id, .newArray .int [.int n]⟩ (.int i) (.int v)
      ⟨⟨id, .newArray .int [.int n]⟩ :: below, stmts, next⟩ = none := by
    simp [fillElement?, arrayContents?, Expr.intValue?]
    omega
  simp [storeElement, pop, popExpr, none, storeInto, other, stepOperator?, Expr.assignment, emit, storeStmt]

/-- The code of one store, up to the store itself. -/
theorem consumes_storeCode (code : ops.map Operation.instr = storeCode (i, v)) (typed : ∀ o ∈ ops, env.TypesInts o)
    (stored : storeElement env ⟨⟨next + 1, .int v⟩ :: ⟨next, .int i⟩ :: ⟨id, e⟩ :: ⟨id, e⟩ :: below, stmts, next + 2⟩ = .ok s') :
    Consumes env ops ⟨⟨id, e⟩ :: below, stmts, next⟩ s' := by
  obtain ⟨copy, ops, rfl, isCopy, code⟩ := List.map_eq_cons_iff.mp code
  obtain ⟨position, ops, rfl, isPosition, code⟩ := List.map_eq_cons_iff.mp code
  obtain ⟨value, ops, rfl, isValue, code⟩ := List.map_eq_cons_iff.mp code
  obtain ⟨store, ops, rfl, isStore, code⟩ := List.map_eq_cons_iff.mp code
  cases List.map_eq_nil_iff.mp code
  refine .cons isCopy (by simp [Instr.takes, DupForm.shape]) rfl ?_
  refine .cons isPosition (Nat.zero_le _) (execute_push_int isPosition (typed position (by simp)) _) ?_
  refine .cons isValue (Nat.zero_le _) (execute_push_int isValue (typed value (by simp)) _) ?_
  exact .cons isStore (by simp [Instr.takes, push, dupStack]) stored rfl

/-- If the code of each store leads from one state to the next, then the code of all stores does from the first to
the last. -/
theorem consumes_stores (state : List (Nat × Int) → Scratch) (code : ops.map Operation.instr = stores.flatMap storeCode)
    (typed : ∀ o ∈ ops, env.TypesInts o)
    (step : ∀ done store ops, store ∈ stores → ops.map Operation.instr = storeCode store →
      (∀ o ∈ ops, env.TypesInts o) → Consumes env ops (state done) (state (done ++ [store]))) :
    Consumes env ops (state []) (state stores) := by
  induction stores using List.reverseRecOn generalizing ops with
  | nil =>
    cases List.map_eq_nil_iff.mp code
    rfl
  | append_singleton stores store ih =>
    rw [List.flatMap_append, List.flatMap_singleton] at code
    obtain ⟨first, last, rfl, code, code'⟩ := List.map_eq_append_iff.mp code
    have before := ih code (fun o mem => typed o (List.mem_append_left last mem))
      fun done store ops mem => step done store ops (List.mem_append_left _ mem)
    exact before.append (step stores store last (by simp) code' fun o mem => typed o (List.mem_append_right first mem))

/-- Each store becomes an element of the initializer. -/
theorem consumes_fills (short : n ≤ greatestInitializer) (inside : ∀ store ∈ stores, store.1 < n)
    (code : ops.map Operation.instr = stores.flatMap storeCode) (typed : ∀ o ∈ ops, env.TypesInts o) :
    Consumes env ops ⟨⟨id, .newArray .int [.int n]⟩ :: below, stmts, next⟩
      ⟨⟨id, arrayAfter n stores⟩ :: below, stmts, next + 2 * stores.length⟩ := by
  refine consumes_stores (fun done => ⟨⟨id, arrayAfter n done⟩ :: below, stmts, next + 2 * done.length⟩) code typed ?_
  rintro done ⟨i, v⟩ ops mem code typed
  refine consumes_storeCode code typed ?_
  rw [storeElement_fills short (inside _ mem), List.length_append]
  rfl

theorem consumes_keeps (long : greatestInitializer < n) (old : id < next)
    (code : ops.map Operation.instr = stores.flatMap storeCode) (typed : ∀ o ∈ ops, env.TypesInts o) :
    Consumes env ops ⟨⟨id, .newArray .int [.int n]⟩ :: below, stmts, next⟩
      ⟨⟨id, .newArray .int [.int n]⟩ :: below, stmts ++ stores.map (storeStmt (.newArray .int [.int n])),
        next + 2 * stores.length⟩ := by
  have run := consumes_stores (fun done => ⟨⟨id, .newArray .int [.int n]⟩ :: below,
    stmts ++ done.map (storeStmt (.newArray .int [.int n])), next + 2 * done.length⟩) code typed ?_
  · simpa using run
  rintro done ⟨i, v⟩ ops - code typed
  refine consumes_storeCode code typed ?_
  rw [storeElement_keeps long (by omega), List.length_append, List.map_append, List.append_assoc]
  rfl

end Scratch

theorem isPlain_of_mem_arrayCode {n : Nat} {stores : List (Nat × Int)} {i : Instr} (member : i ∈ arrayCode n stores) :
    i.isPlain = true := by
  simp only [arrayCode, storeCode, List.mem_cons, List.mem_flatMap, List.not_mem_nil, or_false] at member
  rcases member with rfl | rfl | ⟨_, _, rfl | rfl | rfl | rfl⟩ <;> rfl

namespace Graph

variable {plan : Plan} {b : BlockId} {block : Block} {n : Nat} {stores : List (Nat × Int)}

/-- The stores of constants into a new array. Up to the greatest length all of them become its initializer, which has
the last value of each position. Beyond it they are lost: each becomes a statement, in their order, that assigns to
another new array, and the value that is left has no element stored. -/
theorem convert_collects_stores {d : Draft} (found : d.graph.blocks[b]? = some block)
    (noHandler : d.graph.isHandler b = .ok false) (code : block.ops.map Operation.instr = arrayCode n stores)
    (typed : ∀ o ∈ block.ops, (plan.setting d.graph).TypesInts o) (nonempty : stores ≠ [])
    (inside : ∀ store ∈ stores, store.1 < n) :
    ∃ d' block' id, convert plan b d = .ok (true, d') ∧ d'.graph.blocks[b]? = some block' ∧ block'.ops = [] ∧
      (n ≤ Scratch.greatestInitializer → block'.stmts = block.stmts ∧
        block'.stack = ⟨id, .filledArray .int [.int n] (elementsAfter n stores)⟩ :: block.stack) ∧
      (Scratch.greatestInitializer < n → block'.stack = ⟨id, .newArray .int [.int n]⟩ :: block.stack ∧
        block'.stmts = block.stmts ++ stores.map (storeStmt (.newArray .int [.int n]))) := by
  have plain (o : Operation) (mem : o ∈ block.ops) : o.instr.isPlain = true :=
    isPlain_of_mem_arrayCode (code ▸ List.mem_map_of_mem mem)
  generalize ops_eq : block.ops = ops at code typed plain
  obtain ⟨size, ops, rfl, isSize, code⟩ := List.map_eq_cons_iff.mp code
  obtain ⟨create, ops, rfl, isCreate, code⟩ := List.map_eq_cons_iff.mp code
  obtain ⟨typedSize, _, typed⟩ : _ ∧ _ ∧ ∀ o ∈ ops, (plan.setting d.graph).TypesInts o := by simpa using typed
  have convert_of {s' : Scratch} (stores : Consumes (plan.setting d.graph) ops
      ⟨⟨d.graph.nextValue + 1, .newArray .int [.int n]⟩ :: block.stack, block.stmts, d.graph.nextValue + 2⟩ s') :=
    convert_of_consumes found ops_eq noHandler plain <| .cons isSize (Nat.zero_le _)
      (Scratch.execute_push_int isSize typedSize _) (.cons isCreate (by simp [Instr.takes, Scratch.push]) rfl stores)
  by_cases short : n ≤ Scratch.greatestInitializer
  · obtain ⟨d', block', converted, found', done, stack, stmts⟩ := convert_of (Scratch.consumes_fills short inside code typed)
    refine ⟨d', block', d.graph.nextValue + 1, converted, found', done, fun _ => ⟨stmts, ?_⟩,
      fun long => absurd short (Nat.not_le.mpr long)⟩
    rw [stack, arrayAfter, if_neg (by simpa using nonempty)]
  · obtain ⟨d', block', converted, found', done, stack, stmts⟩ :=
      convert_of (Scratch.consumes_keeps (Nat.not_le.mp short) (Nat.lt_succ_self _) code typed)
    exact ⟨d', block', d.graph.nextValue + 1, converted, found', done, fun short' => absurd short' short,
      fun _ => ⟨stack, stmts⟩⟩

/-- Stores out of order, one position twice and one never. -/
def repeatedStores : List (Nat × Int) := [(2, 7), (0, -1), (2, 9), (4, 1)]

theorem convert_collects_repeatedStores : ∃ d' block' id,
    convert ⟨.none, {}⟩ 0 ⟨single (arrayCode 5 repeatedStores), []⟩ = .ok (true, d') ∧
    d'.graph.blocks[0]? = some block' ∧ block'.ops = [] ∧ block'.stmts = [] ∧
    block'.stack = [⟨id, .filledArray .int [.int 5] [.int (-1), .int 0, .int 9, .int 0, .int 1]⟩] := by
  have found : (single (arrayCode 5 repeatedStores)).blocks[0]? = some (lone (arrayCode 5 repeatedStores)) := rfl
  have code : (lone (arrayCode 5 repeatedStores)).ops.map Operation.instr = arrayCode 5 repeatedStores := rfl
  obtain ⟨d', block', id, converted, found', done, collected, _⟩ :=
    convert_collects_stores (d := ⟨single (arrayCode 5 repeatedStores), []⟩) found rfl code
      (fun o _ => single_typesInts (arrayCode 5 repeatedStores) o) (by decide) (by decide)
  obtain ⟨stmts, stack⟩ := collected (by decide)
  exact ⟨d', block', id, converted, found', done, stmts, stack⟩

/-- An array that is longer than the greatest initializer gets none, and the element goes into another array. -/
theorem convert_long_array_loses_store : ∃ d' block' id,
    convert ⟨.none, {}⟩ 0 ⟨single (arrayCode 4097 [(0, 7)]), []⟩ = .ok (true, d') ∧ d'.graph.blocks[0]? = some block' ∧
    block'.stack = [⟨id, .newArray .int [.int 4097]⟩] ∧
    block'.stmts = [storeStmt (.newArray .int [.int 4097]) (0, 7)] :=
  ⟨_, _, _, by rfl, by rfl, by rfl, by rfl⟩

end Graph

end Unstack
