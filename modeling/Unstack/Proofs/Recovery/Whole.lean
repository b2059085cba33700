import Unstack.Proofs.Recovery.Turn

namespace Unstack

variable {e cond : Expr}

namespace Expr

mutual

/-- The expression has no part that stands for a value taken from an empty stack. -/
@[simp] def whole : Expr → Bool
  | unknown text => text != "underflow"
  | binary _ a b | index a b | assign a _ b | compare _ a b => whole a && whole b
  | unary _ a | post _ a | cast _ a | instanceOf a _ | field a _ | length a => whole a
  | call a _ args => whole a && wholeAll args
  | superCall _ args | create _ args | newArray _ args => wholeAll args
  | filledArray _ dims values => wholeAll dims && wholeAll values
  | conditional a b c => whole a && whole b && whole c
  | null | bool _ | int _ | long _ | float _ | double _ | char _ | string _ | classOf _ | var _ | this | typeName _ => true

@[simp] def wholeAll : List Expr → Bool
  | [] => true
  | e :: rest => whole e && wholeAll rest

end

theorem wholeAll_iff {es : List Expr} : wholeAll es = true ↔ ∀ e ∈ es, e.whole = true := by
  induction es with
  | nil => simp [wholeAll]
  | cons e rest ih => simp [wholeAll, ih]

theorem whole_coerce (t : JavaType) (given : e.whole = true) : (e.coerce t).whole = true := by
  unfold coerce
  repeat' split
  all_goals first
    | rfl
    | exact given

theorem whole_initial (t : JavaType) : (initial t).whole = true := by
  unfold initial
  split <;> rfl

theorem whole_negate (given : e.whole = true) : e.negate.whole = true := by
  fun_induction negate e with
  | case1 e => exact given
  | case2 b => rfl
  | case3 lhs rhs ihl ihr | case4 lhs rhs ihl ihr =>
    rw [whole, Bool.and_eq_true] at given ⊢
    exact ⟨ihl given.1, ihr given.2⟩
  | case5 op lhs rhs _ _ negated _ => exact given
  | case6 op lhs rhs _ _ _ => exact given
  | case7 e => exact given

theorem whole_zeroTest (t : JavaType) (relation : Relation) (given : e.whole = true) :
    (e.zeroTest t relation).whole = true := by
  unfold zeroTest
  simp only
  split
  · exact given
  split
  · simpa [whole] using given
  split
  · split
    · exact whole_negate given
    · exact given
    · simpa [whole] using given
  · simpa [whole] using given

theorem whole_assignment {target value : Expr} (compound : Bool) (atTarget : target.whole = true)
    (atValue : value.whole = true) : (assignment compound target value).whole = true := by
  have plain : (assign target none value).whole = true := by simp [whole, atTarget, atValue]
  unfold assignment
  split
  · split
    · simp only [whole, Bool.and_eq_true] at atValue ⊢
      exact ⟨atTarget, atValue.2⟩
    · exact plain
  · exact plain

theorem whole_builderParts (given : e.whole = true) {parts : List Expr} (built : e.builderParts = some parts) :
    ∀ part ∈ parts, part.whole = true := by
  fun_induction builderParts e generalizing parts with
  | case1 receiver part ih =>
    obtain ⟨before, atReceiver, rfl⟩ := Option.map_eq_some_iff.mp built
    simp only [whole, wholeAll, Bool.and_eq_true] at given
    exact forall_mem_snoc (ih given.1 atReceiver) given.2.1
  | case2 t args fits =>
    cases built
    exact wholeAll_iff.mp given
  | case3 => cases built
  | case4 => cases built

theorem whole_concat? {sum : Expr} (given : e.whole = true) (found : e.concat? = some sum) : sum.whole = true := by
  obtain ⟨parts, built, found⟩ := Option.bind_eq_some_iff.mp found
  have each : ∀ part ∈ (if parts.any isStringLiteral then parts else string "" :: parts), part.whole = true := by
    split
    · exact whole_builderParts given built
    · intro part member
      rcases List.mem_cons.mp member with rfl | later
      · rfl
      · exact whole_builderParts given built part later
  simp only at found
  generalize (if parts.any isStringLiteral then parts else string "" :: parts) = all at each found
  cases all with
  | nil => cases found
  | cons first rest =>
    cases found
    have folded (acc : Expr) (start : acc.whole = true) (items : List Expr) (others : ∀ item ∈ items, item.whole = true) :
        (items.foldl (binary .add) acc).whole = true := by
      induction items generalizing acc with
      | nil => exact start
      | cons item later ih =>
        refine ih _ ?_ fun item member => others item (.tail _ member)
        simp [whole, start, others item (.head _)]
    exact folded first (each first (.head _)) rest fun item member => each item (.tail _ member)

theorem whole_cachedClass? {yes no value : Expr} (found : cond.cachedClass? yes no = some value) :
    value.whole = true := by
  unfold cachedClass? at found
  simp only at found
  repeat' split at found
  all_goals first
    | cases found
    | (obtain ⟨t, _, rfl⟩ := Option.map_eq_some_iff.mp found
       rfl)

theorem whole_ofArms {yes no : Expr} (atCond : cond.whole = true) (atYes : yes.whole = true) (atNo : no.whole = true) :
    (ofArms cond yes no).whole = true := by
  unfold ofArms
  split
  · exact atCond
  · exact whole_negate atCond
  · cases found : cond.cachedClass? yes no with
    | some value => exact whole_cachedClass? found
    | none => simp [whole, atCond, atYes, atNo]

theorem whole_fused? {first second : Expr} {b whenTrue whenFalse firstTrue firstFalse : BlockId}
    (atFirst : first.whole = true) (atSecond : second.whole = true)
    (found : fused? first second b whenTrue whenFalse firstTrue firstFalse = some cond) : cond.whole = true := by
  unfold fused? at found
  repeat' split at found
  all_goals first
    | cases found
      simp [whole, atFirst, atSecond, whole_negate]
    | cases found

theorem Hides.whole {inner : Expr} (hides : e.Hides inner) (given : e.whole = true) : inner.whole = true := by
  induction hides with
  | same => exact given
  | hashed name args _ ih =>
    rw [Expr.whole, Bool.and_eq_true] at given
    exact ih given.1
  | mapped array _ ih =>
    simp only [Expr.whole, Bool.and_eq_true] at given
    exact ih given.2.1

end Expr

theorem Literal.whole_toExpr (t : JavaType) (value : Literal) : (value.toExpr t).whole = true := by
  unfold toExpr
  repeat' split
  all_goals rfl

theorem Setting.whole_regExpr (env : Setting) (reg pc : Nat) : (env.regExpr reg pc).whole = true := by
  unfold regExpr
  simp only
  split <;> rfl

def Stmt.whole : Stmt → Bool
  | .expr e | .raise e | .branch e | .switch e | .monitor _ e => e.whole
  | .declare _ _ value | .leave value => value.all Expr.whole
  | .superInit args => Expr.wholeAll args
  | .comment _ => true

/-- What the operation is declared to give is what it is reconstructed to: a constructor gives nothing, and text
that was put together is a value. -/
def Instr.ResultFits : Instr → Prop
  | .invoke method direct => method.flags.isStatic = false →
    (direct = true → method.isConstructor = true → method.returnsVoid = true) ∧
    (method.name = "toString" → method.params = [] → Expr.isStringBuilder method.owner = true →
      method.returnsVoid = false)
  | _ => True

namespace Scratch

variable {e : Expr} {method : MethodRef}

variable {s s' : Scratch} {env : Setting} {pc : Nat}

structure Whole (s : Scratch) : Prop where
  stack : ∀ value ∈ s.stack, value.expr.whole = true
  stmts : ∀ stmt ∈ s.stmts, stmt.whole = true

/-- Some values are taken from a state and others put in their place, and nothing comes to be missing. -/
structure Turns (taken given : Nat) (s s' : Scratch) : Prop where
  whole : s'.Whole
  length : s'.stack.length + taken = s.stack.length + given

namespace Whole

theorem pop (whole : s.Whole) (enough : 0 < s.stack.length) :
    s.pop.1.expr.whole = true ∧ s.Turns 1 0 s.pop.2 := by
  obtain ⟨stack, stmts, next⟩ := s
  cases stack with
  | nil => cases enough
  | cons top rest =>
    exact ⟨whole.stack top (.head _),
      ⟨fun value member => whole.stack value (.tail _ member), whole.stmts⟩, rfl⟩

theorem push (whole : s.Whole) (given : e.whole = true) : s.Turns 0 1 (s.push e) :=
  ⟨⟨List.forall_mem_cons.mpr ⟨given, whole.stack⟩, whole.stmts⟩, rfl⟩

theorem emit (whole : s.Whole) {stmt : Stmt} (given : stmt.whole = true) : s.Turns 0 0 (s.emit stmt) :=
  ⟨⟨whole.stack, forall_mem_snoc whole.stmts given⟩, rfl⟩

theorem replaceTop (whole : s.Whole) (given : e.whole = true) : s.Turns 0 0 (s.replaceTop e) := by
  unfold Scratch.replaceTop
  split
  · exact ⟨whole, rfl⟩
  · rename_i top rest atStack
    refine ⟨⟨fun value member => ?_, whole.stmts⟩, by simp [atStack]⟩
    rcases List.mem_cons.mp member with rfl | later
    · exact given
    · exact whole.stack value (atStack ▸ .tail _ later)

end Whole

namespace Turns

variable {taken taken' given given' : Nat} {mid : Scratch}

theorem refl (whole : s.Whole) : s.Turns 0 0 s := ⟨whole, rfl⟩

theorem trans (first : s.Turns taken given mid) (second : mid.Turns taken' given' s') :
    s.Turns (taken + taken') (given + given') s' := by
  refine ⟨second.whole, ?_⟩
  have atFirst := first.length
  have atSecond := second.length
  omega

/-- A value that is taken and given back need not be taken. -/
theorem cancel (turns : s.Turns (taken + 1) (given + 1) s') : s.Turns taken given s' := by
  refine ⟨turns.whole, ?_⟩
  have length := turns.length
  omega

theorem enough (turns : s.Turns taken 0 s') {more : Nat} (room : taken + more ≤ s.stack.length) :
    more ≤ s'.stack.length := by
  have length := turns.length
  omega

end Turns

theorem Whole.popTwo (whole : s.Whole) (enough : 2 ≤ s.stack.length) :
    s.pop.1.expr.whole = true ∧ s.pop.2.pop.1.expr.whole = true ∧ s.Turns 2 0 s.pop.2.pop.2 := by
  obtain ⟨atTop, popped⟩ := whole.pop (by omega)
  obtain ⟨atNext, popped'⟩ := popped.whole.pop (popped.enough (by omega))
  exact ⟨atTop, atNext, popped.trans popped'⟩

theorem popExprs_turns {count : Nat} (whole : s.Whole) (enough : count ≤ s.stack.length) :
    (∀ e ∈ (popExprs count s).1, e.whole = true) ∧ s.Turns count 0 (popExprs count s).2 := by
  induction count generalizing s with
  | zero => exact ⟨nofun, .refl whole⟩
  | succ count ih =>
    obtain ⟨atTop, popped⟩ := whole.pop (by omega)
    obtain ⟨below, others⟩ := ih popped.whole (popped.enough (by omega))
    refine ⟨forall_mem_snoc below atTop, ?_⟩
    have both := popped.trans others
    rwa [Nat.add_comm 1 count] at both

theorem popArgs_turns {params : List JavaType} (whole : s.Whole) (enough : params.length ≤ s.stack.length) :
    (∀ e ∈ (popArgs params s).1, e.whole = true) ∧ s.Turns params.length 0 (popArgs params s).2 := by
  induction params generalizing s with
  | nil => exact ⟨nofun, .refl whole⟩
  | cons t rest ih =>
    rw [List.length_cons] at enough ⊢
    obtain ⟨atTop, popped⟩ := whole.pop (by omega)
    obtain ⟨below, others⟩ := ih popped.whole (popped.enough (by omega))
    refine ⟨forall_mem_snoc below (Expr.whole_coerce t atTop), ?_⟩
    have both := popped.trans others
    rwa [Nat.add_comm 1 rest.length] at both

theorem popArgs_length (params : List JavaType) (s : Scratch) : (popArgs params s).1.length = params.length := by
  induction params generalizing s with
  | nil => rfl
  | cons t rest ih => simp [popArgs, ih]

theorem mapTop_turns (whole : s.Whole) (enough : 1 ≤ s.stack.length) {f : Expr → Expr}
    (keeps : ∀ e : Expr, e.whole = true → (f e).whole = true) : s.Turns 1 1 (s.mapTop f) := by
  obtain ⟨atTop, popped⟩ := whole.pop enough
  exact popped.trans (popped.whole.push (keeps _ atTop))

theorem mapTwo_turns (whole : s.Whole) (enough : 2 ≤ s.stack.length) {f : Expr → Expr → Expr}
    (keeps : ∀ lhs rhs : Expr, lhs.whole = true → rhs.whole = true → (f lhs rhs).whole = true) :
    s.Turns 2 1 (s.mapTwo f) := by
  obtain ⟨atTop, atNext, popped⟩ := whole.popTwo enough
  exact popped.trans (popped.whole.push (keeps _ _ atNext atTop))

theorem dup_turns (whole : s.Whole) {form : DupForm} (run : s.dup form = .ok s') :
    s.Turns (form.shape.1 + form.shape.2) (2 * form.shape.1 + form.shape.2) s' := by
  unfold dup at run
  simp only at run
  split at run
  · cases run
  · rename_i room
    cases run
    refine ⟨⟨fun value member => whole.stack value ?_, whole.stmts⟩, ?_⟩
    · simp only [dupStack, List.mem_append] at member
      rcases member with (upper | copied) | rest
      · exact List.mem_of_mem_take upper
      · exact List.mem_of_mem_take copied
      · exact List.mem_of_mem_drop rest
    · simp only [dupStack, List.length_append, List.length_take, List.length_drop]
      omega

theorem swap_turns (whole : s.Whole) (run : s.swap = .ok s') : s.Turns 2 2 s' := by
  unfold swap at run
  split at run
  · rename_i a b rest atStack
    cases run
    refine ⟨⟨fun value member => whole.stack value ?_, whole.stmts⟩, by simp [atStack]⟩
    rw [atStack]
    simp only [List.mem_cons] at member ⊢
    tauto
  · cases run

/-- A copy on top of the stack gives way to the assignment. -/
theorem Whole.exchange (whole : s.Whole) (enough : 0 < s.stack.length) (given : e.whole = true) :
    s.Turns 0 0 (s.pop.2.push e) := by
  obtain ⟨_, popped⟩ := whole.pop enough
  exact (popped.trans (popped.whole.push given)).cancel

theorem store_turns (whole : s.Whole) (enough : 1 ≤ s.stack.length) (reg : Nat) :
    s.Turns 1 0 (s.store env reg pc) := by
  obtain ⟨atTop, popped⟩ := whole.pop enough
  have copied {name : String} {init : Expr} (atInit : init.whole = true)
      (isCopied : s.pop.2.stack.head?.map StackValue.id = some s.pop.1.id) :
      s.Turns 1 0 (s.pop.2.pop.2.push (.assign (.var name) none init)) := by
    refine popped.trans (popped.whole.exchange ?_ (by simp [Expr.whole, atInit]))
    rw [List.length_pos_iff]
    intro none
    rw [none] at isCopied
    cases isCopied
  have assigned {init : Expr} (atInit : init.whole = true) (name : String) :
      s.Turns 1 0 (s.pop.2.emit (.expr (.assign (if name = "this" then .this else .var name) none init))) := by
    refine popped.trans (popped.whole.emit ?_)
    split <;> simp [Stmt.whole, Expr.whole, atInit]
  unfold store
  simp only
  cases env.info.localAt reg (pc + 1) with
  | none =>
    split
    · exact copied atTop ‹_›
    · exact assigned atTop _
  | some v =>
    have atInit := Expr.whole_coerce v.type atTop
    split
    · exact copied atInit ‹_›
    · simp only
      split
      · exact popped.trans (popped.whole.emit (by simpa [Stmt.whole] using atInit))
      · exact assigned atInit _

theorem storeInto_turns (whole : s.Whole) {target : Expr} (atTarget : target.whole = true) {value : StackValue}
    (atValue : value.expr.whole = true) : s.Turns 0 0 (s.storeInto env target value) := by
  have assigned := Expr.whole_assignment env.compoundAssignments atTarget atValue
  unfold storeInto
  split
  · exact whole.emit assigned
  · rename_i top rest atStack
    split
    · exact whole.exchange (by simp [atStack]) assigned
    · split
      · exact whole.replaceTop (by simpa [Expr.whole] using atTarget)
      · exact whole.emit assigned

theorem changeValue_turns {id : Nat} (given : e.whole = true) {stack changed : List StackValue}
    (whole : ∀ value ∈ stack, value.expr.whole = true) (run : changeValue id e stack = some changed) :
    (∀ value ∈ changed, value.expr.whole = true) ∧ changed.length = stack.length := by
  induction stack generalizing changed with
  | nil => cases run
  | cons value rest ih =>
    have here := whole value (.head _)
    have later (value : StackValue) (member : value ∈ rest) := whole value (.tail _ member)
    unfold changeValue at run
    split at run
    · cases run
      exact ⟨List.forall_mem_cons.mpr ⟨given, later⟩, rfl⟩
    · obtain ⟨others, ran, rfl⟩ := Option.map_eq_some_iff.mp run
      obtain ⟨atOthers, length⟩ := ih later ran
      exact ⟨List.forall_mem_cons.mpr ⟨here, atOthers⟩, by simp [length]⟩

theorem arrayContents?_whole (given : e.whole = true) {t : JavaType} {dims values : List Expr}
    (found : arrayContents? e = some (t, dims, values)) :
    Expr.wholeAll dims = true ∧ ∀ value ∈ values, value.whole = true := by
  unfold arrayContents? at found
  split at found
  · split at found
    · cases found
      simp only [Expr.whole, Bool.and_eq_true] at given
      exact ⟨given.1, Expr.wholeAll_iff.mp given.2⟩
    · cases found
  · obtain ⟨n, _, found⟩ := Option.bind_eq_some_iff.mp found
    split at found
    · cases found
      refine ⟨given, fun value member => ?_⟩
      rw [(List.mem_replicate.mp member).2]
      exact Expr.whole_initial _
    · cases found
  · cases found

theorem fillElement?_turns (whole : s.Whole) {array : StackValue} (atArray : array.expr.whole = true)
    {position value : Expr} (atValue : value.whole = true) {filled : Checked Scratch}
    (fills : fillElement? array position value s = some filled) (run : filled = .ok s') : s.Turns 0 0 s' := by
  unfold fillElement? at fills
  obtain ⟨⟨t, dims, values⟩, contents, fills⟩ := Option.bind_eq_some_iff.mp fills
  obtain ⟨i, _, fills⟩ := Option.bind_eq_some_iff.mp fills
  obtain ⟨atDims, atValues⟩ := arrayContents?_whole atArray contents
  split at fills
  · obtain ⟨stack, changed, fills⟩ := Option.bind_eq_some_iff.mp fills
    have complete : (Expr.filledArray t dims (values.set i.toNat value)).whole = true := by
      rw [Expr.whole, atDims, Bool.true_and, Expr.wholeAll_iff]
      intro e member
      rcases List.mem_or_eq_of_mem_set member with old | rfl
      · exact atValues e old
      · exact atValue
    obtain ⟨atStack, length⟩ := changeValue_turns complete whole.stack changed
    have chosen := Option.some.inj fills
    rw [run] at chosen
    split at chosen <;> cases chosen
    exact ⟨⟨atStack, whole.stmts⟩, congrArg (· + 0) length⟩
  · cases fills

theorem storeElement_turns (whole : s.Whole) (enough : 3 ≤ s.stack.length) (run : s.storeElement env = .ok s') :
    s.Turns 3 0 s' := by
  obtain ⟨atValue, atPosition, taken⟩ := whole.popTwo (by omega)
  obtain ⟨atArray, popped⟩ := taken.whole.pop (taken.enough (by omega))
  have all := taken.trans popped
  unfold storeElement at run
  simp only at run
  split at run
  · rename_i filled fills
    exact all.trans (fillElement?_turns all.whole atArray atValue fills run)
  · cases run
    refine all.trans (storeInto_turns all.whole ?_ atValue)
    rw [Expr.whole, Bool.and_eq_true]
    exact ⟨atArray, atPosition⟩

theorem inc_turns (whole : s.Whole) (reg : Nat) (amount : Int) : s.Turns 0 0 (s.inc env reg amount pc) := by
  have atReg := env.whole_regExpr reg pc
  have either (isTop : Bool) (target : Expr) (atTarget : target.whole = true) :
      s.Turns 0 0 (if isTop && amount = 1 then s.replaceTop (.post .inc target)
        else if isTop && amount = -1 then s.replaceTop (.post .dec target) else s.emit (incStmt target amount)) := by
    split
    · exact whole.replaceTop atTarget
    split
    · exact whole.replaceTop atTarget
    · refine whole.emit ?_
      unfold incStmt
      split_ifs <;> simp [Stmt.whole, Expr.whole, atTarget]
  exact either _ _ atReg

theorem construct_turns (whole : s.Whole) {object : StackValue} (atObject : object.expr.whole = true) {args : List Expr}
    (atArgs : ∀ arg ∈ args, arg.whole = true) : s.Turns 0 0 (s.construct object args) := by
  have allArgs := Expr.wholeAll_iff.mpr atArgs
  unfold construct
  split
  · split
    · exact .refl whole
    · exact whole.emit allArgs
  · split
    · refine ⟨⟨fun value member => ?_, whole.stmts⟩, by simp [changeAll]⟩
      obtain ⟨old, before, rfl⟩ := List.mem_map.mp member
      split
      · exact allArgs
      · exact whole.stack old before
    · exact whole.emit allArgs
  · refine whole.emit ?_
    simp [Stmt.whole, Expr.whole, atObject, allArgs]

theorem finishCall_turns (whole : s.Whole) (method : MethodRef) {call : Expr} (atCall : call.whole = true) :
    s.Turns 0 (if method.returnsVoid then 0 else 1) (s.finishCall method call) := by
  unfold finishCall
  split
  · exact whole.emit atCall
  · exact whole.push atCall

theorem concatCall?_some {args : List Expr} {sum : Expr} (found : concatCall? method args s = some sum) :
    method.name = "toString" ∧ args = [] ∧ Expr.isStringBuilder method.owner = true ∧
      ∃ top rest, s.stack = top :: rest ∧ top.expr.concat? = some sum := by
  unfold concatCall? at found
  split at found
  · rename_i shaped
    simp only [Bool.and_eq_true, decide_eq_true_eq, List.isEmpty_iff] at shaped
    obtain ⟨top, atTop, found⟩ := Option.bind_eq_some_iff.mp found
    obtain ⟨rest, atStack⟩ := List.head?_eq_some_iff.mp atTop
    exact ⟨shaped.1.1, shaped.1.2, shaped.2, top, rest, atStack, found⟩
  · cases found

/-- A call takes its arguments and gives its result. -/
theorem invoke_turns (whole : s.Whole) {direct : Bool} (enough : (Instr.invoke method direct).takes ≤ s.stack.length)
    (fits : (Instr.invoke method direct).ResultFits) :
    s.Turns (Instr.invoke method direct).takes (Instr.invoke method direct).gives (s.invoke env method direct) := by
  have count : method.params.reverse.length = method.params.length := List.length_reverse
  have takes : (Instr.invoke method direct).takes = method.params.length + if method.flags.isStatic then 0 else 1 := rfl
  rw [takes] at enough ⊢
  obtain ⟨atArgs, popped⟩ := popArgs_turns whole (count ▸ (by omega) : method.params.reverse.length ≤ s.stack.length)
  have allArgs := Expr.wholeAll_iff.mpr atArgs
  rw [count] at popped
  unfold invoke
  simp only
  cases isStatic : method.flags.isStatic with
  | true =>
    have finished := finishCall_turns popped.whole method
      (show (Expr.call (.typeName method.owner) method.name (popArgs method.params.reverse s).1).whole = true from allArgs)
    simpa [Instr.gives] using popped.trans finished
  | false =>
    rw [isStatic] at enough
    obtain ⟨constructs, concats⟩ := fits isStatic
    obtain ⟨atObject, popped'⟩ := popped.whole.pop (popped.enough enough)
    have all := popped.trans popped'
    have called : (Expr.call (popArgs method.params.reverse s).2.pop.1.expr method.name
        (popArgs method.params.reverse s).1).whole = true := by simp [Expr.whole, atObject, allArgs]
    have finish {call : Expr} (atCall : call.whole = true) := all.trans (finishCall_turns all.whole method atCall)
    simp only [Bool.false_eq_true, if_false]
    split
    · rename_i isDirect
      split
      · rename_i isConstructor
        have gives : (Instr.invoke method direct).gives = 0 := by
          simp only [Instr.gives, constructs isDirect isConstructor, if_true]
        rw [gives]
        exact all.trans (construct_turns all.whole atObject atArgs)
      split
      · have superCalled : (Expr.superCall method.name (popArgs method.params.reverse s).1).whole = true := allArgs
        simpa [Instr.gives] using finish superCalled
      · simpa [Instr.gives] using finish called
    · split
      · rename_i sum found
        obtain ⟨name, none, builder, top, rest, atStack, concat⟩ := concatCall?_some found
        have noParams : method.params = [] := by
          rw [← List.length_eq_zero_iff, ← count, ← popArgs_length method.params.reverse s, none, List.length_nil]
        have gives : (Instr.invoke method direct).gives = 1 := by
          simp only [Instr.gives, concats name noParams builder, Bool.false_eq_true, if_false]
        rw [gives]
        refine all.trans (all.whole.push ?_)
        exact Expr.whole_concat? (popped.whole.stack top (atStack ▸ .head _)) concat
      · simpa [Instr.gives, popExpr] using finish called

theorem fieldTarget_turns (whole : s.Whole) {field : FieldRef} (enough : (if field.flags.isStatic then 0 else 1) ≤ s.stack.length) :
    (s.fieldTarget field).1.whole = true ∧ s.Turns (if field.flags.isStatic then 0 else 1) 0 (s.fieldTarget field).2 := by
  unfold fieldTarget
  split
  · exact ⟨rfl, .refl whole⟩
  · rename_i dynamic
    rw [if_neg dynamic] at enough
    obtain ⟨atObject, popped⟩ := whole.pop enough
    exact ⟨atObject, popped⟩

theorem put_turns (whole : s.Whole) {field : FieldRef} (enough : (Instr.put field).takes ≤ s.stack.length) :
    s.Turns (Instr.put field).takes 0 (s.put env field) := by
  have takes : (Instr.put field).takes = 1 + if field.flags.isStatic then 0 else 1 := by
    simp only [Instr.takes]
    split <;> rfl
  rw [takes] at enough ⊢
  obtain ⟨atValue, popped⟩ := whole.pop (by omega)
  obtain ⟨atTarget, taken⟩ := fieldTarget_turns popped.whole (popped.enough enough)
  have all := popped.trans taken
  exact all.trans (storeInto_turns all.whole atTarget (Expr.whole_coerce _ atValue))

theorem popStmt_turns (whole : s.Whole) {form : PopForm} (enough : form.count ≤ s.stack.length) :
    s.Turns form.count 0 (s.popStmt form) := by
  cases form with
  | pop =>
    obtain ⟨atTop, popped⟩ := whole.pop enough
    refine popped.trans (popped.whole.emit ?_)
    exact atTop
  | pop2 =>
    obtain ⟨atTop, atNext, popped⟩ := whole.popTwo enough
    have emitted : s.pop.2.pop.2.Turns 0 0 (s.pop.2.pop.2.emit (.expr s.pop.2.pop.1.expr)) := popped.whole.emit atNext
    refine (popped.trans emitted).trans (emitted.whole.emit ?_)
    exact atTop

/-- An operation that finds its values changes the length of the stack as it declares, and nothing comes to be
missing. -/
theorem execute_turns {instr : Instr} (whole : s.Whole) (enough : instr.takes ≤ s.stack.length) (fits : instr.ResultFits)
    (inside : ∀ target, instr ≠ .enterSub target) (run : s.execute env pc instr = .ok s') :
    s.Turns instr.takes instr.gives s' := by
  have binary (op : BinOp) (lhs rhs : Expr) (atLhs : lhs.whole = true) (atRhs : rhs.whole = true) :
      (Expr.binary op lhs rhs).whole = true := by simp [Expr.whole, atLhs, atRhs]
  cases instr with
  | arith op t =>
    cases run
    refine mapTwo_turns whole enough fun lhs rhs atLhs atRhs => ?_
    unfold arithExpr xorExpr
    split
    · split
      · exact atLhs
      · exact binary _ _ _ atLhs atRhs
    · exact binary _ _ _ atLhs atRhs
  | neg | arrayLength | cast | instanceOf =>
    cases run
    exact mapTop_turns whole enough fun _ => id
  | fillArray values =>
    cases run
    refine mapTop_turns whole enough fun e given => ?_
    have literals (t : JavaType) : Expr.wholeAll (values.map (Literal.toExpr t)) = true := by
      rw [Expr.wholeAll_iff]
      intro e member
      obtain ⟨value, _, rfl⟩ := List.mem_map.mp member
      exact Literal.whole_toExpr t value
    unfold fillArray
    split
    · simpa [Expr.whole, literals] using given
    · simp only [Expr.whole, Bool.and_eq_true] at given
      simp [Expr.whole, literals, given.1]
    · exact given
  | compare | arrayLoad =>
    cases run
    exact mapTwo_turns whole enough fun lhs rhs atLhs atRhs => by simp [Expr.whole, atLhs, atRhs]
  | arrayStore => exact storeElement_turns whole enough run
  | dup form => exact dup_turns whole run
  | swap => exact swap_turns whole run
  | pop form =>
    cases run
    exact popStmt_turns whole enough
  | get field =>
    cases run
    obtain ⟨atTarget, taken⟩ := fieldTarget_turns whole enough
    exact taken.trans (taken.whole.push atTarget)
  | put field =>
    cases run
    exact put_turns whole enough
  | goto | leaveSub =>
    cases run
    exact .refl whole
  | enterSub target => exact absurd rfl (inside target)
  | inc t reg amount =>
    cases run
    exact inc_turns whole reg amount
  | invoke method direct =>
    cases run
    exact invoke_turns whole enough fits
  | jumpCompare t relation target =>
    cases run
    obtain ⟨atTop, atNext, popped⟩ := whole.popTwo enough
    refine popped.trans (popped.whole.emit ?_)
    exact binary (.ofRelation relation) _ _ atNext atTop
  | jumpZero t relation target =>
    cases run
    obtain ⟨atTop, popped⟩ := whole.pop enough
    refine popped.trans (popped.whole.emit ?_)
    exact Expr.whole_zeroTest _ _ atTop
  | load t reg =>
    cases run
    exact whole.push (env.whole_regExpr reg pc)
  | store t reg =>
    cases run
    exact store_turns whole enough reg
  | monitor | raise =>
    cases run
    obtain ⟨atTop, popped⟩ := whole.pop enough
    refine popped.trans (popped.whole.emit ?_)
    exact atTop
  | create t =>
    cases run
    exact whole.push rfl
  | createArray t dims =>
    cases run
    obtain ⟨atSizes, popped⟩ := popExprs_turns whole enough
    refine popped.trans (popped.whole.push ?_)
    exact Expr.wholeAll_iff.mpr atSizes
  | push t value =>
    cases run
    exact whole.push (Literal.whole_toExpr _ value)
  | leave t =>
    simp only [execute] at run
    simp only [Instr.takes] at enough ⊢
    split at run <;> cases run
    · rename_i nothing
      rw [if_pos nothing]
      exact whole.emit rfl
    · rename_i something
      rw [if_neg something] at enough ⊢
      obtain ⟨atTop, popped⟩ := whole.pop enough
      refine popped.trans (popped.whole.emit ?_)
      exact Expr.whole_coerce _ atTop
  | switch =>
    cases run
    exact (whole.pop enough).2

end Scratch

end Unstack
