import Unstack.Proofs.Recovery.Prepared
import Unstack.Proofs.Recovery.Whole

namespace Unstack

variable {block : Block} {o : Operation} {rest : List Operation} {value : StackValue}

namespace Content

variable {c front : Content}

/-- Nothing that the content holds has a missing part, and its operations give what they are reconstructed to. -/
structure Whole (c : Content) : Prop where
  fits : ∀ o ∈ c.ops, o.instr.ResultFits
  stack : ∀ value ∈ c.stack, value.expr.whole = true
  stmts : ∀ stmt ∈ c.stmts, stmt.whole = true

namespace Whole

theorem cleared (c : Content) : c.cleared.Whole := ⟨nofun, nofun, nofun⟩

theorem before (atFront : front.Whole) (whole : c.Whole) : (front.before c).Whole := by
  refine ⟨fun o member => ?_, fun value member => ?_, fun stmt member => ?_⟩
  · exact (List.mem_append.mp member).elim (atFront.fits o) (whole.fits o)
  · exact (List.mem_append.mp member).elim (whole.stack value) (atFront.stack value)
  · exact (List.mem_append.mp member).elim (atFront.stmts stmt) (whole.stmts stmt)

theorem push (whole : c.Whole) (given : value.expr.whole = true) : (c.push value).Whole :=
  ⟨whole.fits, List.forall_mem_cons.mpr ⟨given, whole.stack⟩, whole.stmts⟩

theorem append (whole : c.Whole) {more : List Stmt} (given : ∀ stmt ∈ more, stmt.whole = true) :
    Whole { c with stmts := c.stmts ++ more } :=
  ⟨whole.fits, whole.stack, fun stmt member => (List.mem_append.mp member).elim (whole.stmts stmt) (given stmt)⟩

/-- Leaving something out leaves the rest whole. -/
theorem part (whole : c.Whole) {c' : Content} (ops : c'.ops ⊆ c.ops) (stack : c'.stack ⊆ c.stack)
    (stmts : c'.stmts ⊆ c.stmts) : c'.Whole :=
  ⟨fun o member => whole.fits o (ops member), fun value member => whole.stack value (stack member),
    fun stmt member => whole.stmts stmt (stmts member)⟩

theorem cond (whole : c.Whole) {cond : Expr} (ends : c.stmts.getLast? = some (.branch cond)) : cond.whole = true :=
  whole.stmts _ (List.mem_of_getLast? ends)

end Whole

end Content

namespace Graph

variable {n : Nat} {g g' : Graph} {b : BlockId}

/-- What all blocks hold is whole, those included that were taken out. -/
def Whole (g : Graph) : Prop := ∀ (i : BlockId) (c : Content), g.contentOf i = some c → c.Whole

namespace Whole

theorem congr (whole : g.Whole) (same : ∀ i, g'.contentOf i = g.contentOf i) : g'.Whole :=
  fun i c found => whole i c (same i ▸ found)

theorem atBlock (whole : g.Whole) (found : g.blocks[b]? = some block) : block.content.Whole :=
  whole b block.content (contentOf_eq found)

theorem altered (whole : g.Whole) {change : Block → Block}
    (keeps : ∀ block, block.content.Whole → (change block).content.Whole) : (g.altered b change).Whole := by
  intro i c found
  obtain ⟨block, atBlock, rfl⟩ := Option.map_eq_some_iff.mp found
  rw [altered_block] at atBlock
  split at atBlock
  · obtain ⟨old, atOld, rfl⟩ := Option.map_eq_some_iff.mp atBlock
    exact keeps old (whole.atBlock atOld)
  · exact whole.atBlock atBlock

theorem pushed (whole : g.Whole) (b : BlockId) {expr : Expr} (given : expr.whole = true) : (g.pushed b expr).Whole := by
  have same : { g with nextValue := g.nextValue + 1 }.Whole := whole.congr fun _ => rfl
  exact same.altered fun block atBlock => Content.Whole.push atBlock given

theorem joined (whole : g.Whole) {pred : BlockId} {front : Block} (found : g.blocks[pred]? = some front) :
    (g.joined b pred front).Whole := by
  intro i c given
  rw [contentOf_joined, Option.map_map] at given
  obtain ⟨old, atOld, rfl⟩ := Option.map_eq_some_iff.mp given
  have kept : (if pred = i then old.cleared else old).Whole := by
    split
    · exact .cleared old
    · exact whole i old atOld
  simp only [Function.comp_apply]
  split
  · exact (whole.atBlock found).before kept
  · exact kept

theorem arm (whole : g.Whole) {arm : BlockId} (atArm : g.Arm b arm value) : value.expr.whole = true := by
  obtain ⟨block, found, single, _⟩ := atArm.holds
  refine (whole.atBlock found).stack value ?_
  change value ∈ block.stack
  rw [single]
  exact List.mem_singleton_self value

theorem foldConditional (whole : g.Whole) (wired : g.Wired) (run : g.foldConditional b = .ok (some g')) : g'.Whole := by
  obtain ⟨head, front, cond, whenTrue, whenFalse, yes, no, diamond, folding⟩ := wired.foldConditional_some run
  have chosen : (cond.ofArms yes.expr no.expr).whole = true :=
    Expr.whole_ofArms ((whole.atBlock diamond.branches.found).cond diamond.branches.ends) (whole.arm diamond.yes)
      (whole.arm diamond.no)
  have bare : (g.withoutArms head whenTrue whenFalse).Whole := by
    have unbranched : (g.altered head Block.unbranched).Whole :=
      whole.altered fun block atBlock => atBlock.part (fun _ => id) (fun _ => id) (List.dropLast_subset _)
    exact unbranched.congr fun i => (contentOf_withoutBlock ..).trans (contentOf_withoutBlock ..)
  rcases diamond.folded wired folding with ⟨front', atFront, rfl⟩ | ⟨stale, rfl⟩
  · exact (bare.joined atFront).pushed b chosen
  · exact (bare.pushed head chosen).congr fun i => (contentOf_without ..).trans (contentOf_withEdge ..)

theorem fuseBranches (whole : g.Whole) (wired : g.Wired) (run : g.fuseBranches b = .ok (some g')) : g'.Whole := by
  obtain ⟨pred, front, block, first, second, cond, front', fusion, atFront, rfl⟩ := wired.fuseBranches_some run
  obtain ⟨_, _, branches, _, _, branches', fused⟩ := fusion.front
  have atCond : cond.whole = true :=
    Expr.whole_fused? ((whole.atBlock branches.found).cond branches.ends)
      ((whole.atBlock branches'.found).cond branches'.ends) fused
  have changed : (g.altered pred (Block.recond cond)).Whole := by
    refine whole.altered fun block atBlock => ⟨atBlock.fits, atBlock.stack, ?_⟩
    change ∀ stmt ∈ changeCond cond block.stmts, _
    unfold changeCond
    split
    · exact forall_mem_snoc (fun stmt early => atBlock.stmts stmt (List.dropLast_subset _ early)) atCond
    · exact atBlock.stmts
  have beheaded : (g.withFused b pred cond).Whole :=
    changed.altered fun block atBlock => atBlock.part (fun _ => id) (fun _ => id) (List.drop_subset _ _)
  exact beheaded.joined atFront

theorem foldCachedClass (whole : g.Whole) (wired : g.Wired) (run : g.foldCachedClass b = .ok (some g')) : g'.Whole := by
  obtain ⟨head, follow, front, name, t, front', _, atFront, rfl⟩ := wired.foldCachedClass_some run
  have untested : (g.altered head Block.untested).Whole :=
    whole.altered fun block atBlock => atBlock.part (fun _ => id) (List.tail_subset _) (List.dropLast_subset _)
  have bare : (g.withoutFill b head).Whole := untested.congr fun i => contentOf_withoutBlock b i
  exact (bare.joined atFront).pushed follow rfl

theorem dropped (whole : g.Whole) (found : g.blocks[b]? = some block) (ops : block.ops = o :: rest) :
    (g.altered b (Block.withOps rest)).Whole := by
  have fits := (whole.atBlock found).fits
  change ∀ o ∈ block.ops, _ at fits
  rw [ops] at fits
  exact whole.altered fun block atBlock =>
    ⟨fun o member => fits o (.tail _ member), atBlock.stack, atBlock.stmts⟩

theorem enters (whole : g.Whole) (enters : Enters g b g') : g'.Whole := by
  cases enters with
  | same => exact whole
  | declared t name found ops =>
    exact (whole.dropped found ops).altered fun block atBlock => atBlock.append (List.forall_mem_singleton.mpr rfl)
  | dropped found ops => exact whole.dropped found ops
  | caught name => exact whole.pushed b rfl

end Whole

end Graph

namespace Draft

open Unstack.Graph

variable {n : Nat} {plan : Plan} {b : BlockId} {d d' : Draft}

/-- An operation that is executed changes the stack of its block as it declares. Nothing comes to be missing: the
values that it takes are there. -/
theorem Executes.balanced {env : Setting} {block' : Block} (executes : Executes plan env b o rest block block' d d')
    (sturdy : Sturdy n d.graph) (whole : d.graph.Whole) :
    block'.stack.length + o.instr.takes = block.stack.length + o.instr.gives ∧ d'.graph.Whole := by
  obtain ⟨_, s, stmts, step, content⟩ := executes.executed sturdy
  obtain ⟨found, ops, onValues, enough, _, _, _⟩ := executes
  have dropped := whole.dropped found ops
  have atBlock := dropped.atBlock step.found
  have fits : o.instr.ResultFits := by
    refine (whole.atBlock found).fits o ?_
    change o ∈ block.ops
    rw [ops]
    exact .head _
  have inside (target : Nat) : o.instr ≠ .enterSub target := by
    intro enters
    simp [movesReturnAddress, enters] at onValues
  have start : ((d.graph.altered b (Block.withOps rest)).scratch (block.withOps rest)).Whole :=
    ⟨atBlock.stack, atBlock.stmts⟩
  have turns := Scratch.execute_turns start enough fits inside step.executed
  -- the statement of a switch is added after the operation, with the value that it took
  have switched : ∀ stmt ∈ stmts, stmt.whole = true := by
    rcases step.switched with rfl | ⟨⟨keys, targets, fallback, isSwitch⟩, value, hides, rfl⟩
    · exact nofun
    · rw [isSwitch] at enough
      exact List.forall_mem_singleton.mpr (hides.whole (start.pop enough).1)
  refine ⟨?_, fun i c atContent => ?_⟩
  · have stack : block'.stack = s.stack := congrArg Content.stack content
    rw [stack]
    exact turns.length
  · by_cases here : b = i
    · subst here
      rw [step.content, Option.some.injEq] at atContent
      subst atContent
      have state : Content.Whole { (block.withOps rest).content with stack := s.stack, stmts := s.stmts } :=
        ⟨atBlock.fits, turns.whole.stack, turns.whole.stmts⟩
      exact state.append switched
    · rw [step.others i here] at atContent
      exact dropped i c atContent

/-- An operation that finds the values that it takes can be executed. -/
theorem Executes.exists {env : Setting} (sturdy : Sturdy n d.graph) (found : d.graph.blocks[b]? = some block)
    (ops : block.ops = o :: rest) (onValues : movesReturnAddress env o = false)
    (enough : o.instr.takes ≤ block.stack.length) : ∃ block' d', Executes plan env b o rest block block' d d' := by
  have sturdy₁ : Sturdy n (d.graph.altered b (Block.withOps rest)) := sturdy.altered (Block.keepsWiring_withOps rest)
  obtain ⟨g', run, sturdy₂⟩ := sturdy₁.executeOp plan env (altered_self found _) enough
  obtain ⟨block', found', _⟩ := sturdy₂.block_total (sturdy.size ▸ found.lt_size)
  exact ⟨block', ⟨g', _⟩, found, ops, onValues, enough, run, block_eq_ok.mp found', rfl⟩

/-- What the reconstruction keeps: nothing is missing, and all that is reported is that values may be. -/
structure Whole (n : Nat) (d : Draft) : Prop where
  sturdy : Sturdy n d.graph
  graph : d.graph.Whole
  notes : ∀ note ∈ d.notes, ∃ pc, note = .error pc "stack underflow"

theorem Turn.whole (turn : Turn plan b d d') (whole : d.Whole n) : d'.Whole n := by
  refine ⟨turn.sturdy whole.sturdy, ?_, ?_⟩
  · cases turn with
    | enter enters => exact whole.graph.enters enters
    | skip found ops => exact whole.graph.dropped found ops
    | execute executes => exact (executes.balanced whole.sturdy whole.graph).2
  · cases turn with
    | enter _ => exact whole.notes
    | skip _ _ => exact whole.notes
    | execute executes =>
      have balanced := (executes.balanced whole.sturdy whole.graph).1
      rw [executes.notes, balanceNote, if_pos balanced, List.append_nil]
      exact whole.notes

/-- One change of the reconstruction leaves all expressions whole. -/
theorem Step.whole (step : Step plan d d') (whole : d.Whole n) : d'.Whole n := by
  have sturdy := step.sturdy whole.sturdy
  have wired := whole.sturdy.wired
  cases step with
  | conditional run => exact ⟨sturdy, whole.graph.foldConditional wired run, whole.notes⟩
  | fuse run => exact ⟨sturdy, whole.graph.fuseBranches wired run, whole.notes⟩
  | cached run => exact ⟨sturdy, whole.graph.foldCachedClass wired run, whole.notes⟩
  | turn turn => exact turn.whole whole
  | giveUp found =>
    refine ⟨sturdy, whole.graph.altered fun block atBlock => ⟨atBlock.fits, atBlock.stack, atBlock.stmts⟩, ?_⟩
    exact forall_mem_snoc whole.notes ⟨_, rfl⟩
  | renumber run => exact ⟨sturdy, whole.graph.congr (wired.searched run).1.contentOf, whole.notes⟩

theorem Steps.whole (steps : Steps plan d d') (whole : d.Whole n) : d'.Whole n :=
  steps.keep (Whole n) whole fun _ _ whole step => step.whole whole

/-- A message about values that may be missing is none about the balance. -/
theorem Whole.quiet (whole : d.Whole n) {note : Diagnostic} (member : note ∈ d.notes) (name : String) :
    note.message ≠ "stack balance violated by " ++ name := by
  obtain ⟨pc, rfl⟩ := whole.notes note member
  intro same
  have longer := congrArg String.length same
  change "stack underflow".length = _ at longer
  rw [String.length_append] at longer
  have shorter : "stack underflow".length < "stack balance violated by ".length := by decide
  omega

end Draft

namespace Graph

variable {m : MethodInput} {built last ready : Graph} {dead : List BlockId}

/-- Operations that count values give what the operations of the method do. -/
theorem Prepares.whole (prepares : Prepares built last ready dead) (run : (Graph.ofMethod m).run = .ok (.ok built))
    (fits : ∀ o ∈ m.ops, o.instr.ResultFits) : Draft.Whole ready.size ⟨ready, []⟩ := by
  have ofMethod := (ofMethod_yields m).of_run run
  refine ⟨prepares.sturdy, fun i c found => ?_, nofun⟩
  obtain ⟨stmts, stack, _⟩ := prepares.raw run found
  obtain ⟨block, atBlock, _, rfl⟩ := prepares.content ofMethod found
  refine ⟨fun o' member => ?_, stack ▸ nofun, stmts ▸ nofun⟩
  obtain ⟨o, inside, rfl⟩ := List.mem_map.mp member
  have laid := prepares.laid ofMethod
  have listed := laid.op_listed atBlock inside
  cases isInstr : (last.counted o).instr with
  | invoke method direct =>
    obtain ⟨index, atIndex⟩ := List.mem_iff_getElem?.mp inside
    obtain ⟨original, atOriginal, rfl⟩ := MethodInput.numbered_eq_some.mp (laid.op_numbered atBlock atIndex)
    rw [← instr_of_counted listed isInstr nofun nofun]
    exact fits original (List.mem_of_getElem? atOriginal)
  | _ => trivial

end Graph

/-- If constructors give nothing and text that was put together is a value, the reconstruction keeps the balance of
the stack: whatever state it passes through, no expression has a missing part, no message is about the balance, and
an operation that is executed there leaves as many values as it declares. -/
theorem Graph.reconstruct_balanced {m : MethodInput} {g g₁ g₂ g₃ : Graph} {plan : Plan} {count : Nat}
    (fits : ∀ o ∈ m.ops, o.instr.ResultFits) (built : (Graph.ofMethod m).run = .ok (.ok g))
    (solved : g.solve plan.options = .ok (.ok (), g₁)) (removed : g₁.removeUnreachable = .ok (count, g₂))
    (numbered : g₂.renumber = .ok g₃) :
    ∃ outcome d, g₃.reconstruct plan [] = .ok (outcome, d) ∧ Draft.Steps plan ⟨g₃, []⟩ d ∧
      ∀ mid, Draft.Steps plan ⟨g₃, []⟩ mid → mid.graph.Whole ∧
        (∀ note ∈ mid.notes, ∀ name, note.message ≠ "stack balance violated by " ++ name) ∧
        ∀ next env b o rest block block', Draft.Executes plan env b o rest block block' mid next →
          block'.stack.length = block.stack.length - o.instr.takes + o.instr.gives := by
  obtain ⟨last, dead, prepares⟩ := ((ofMethod_yields m).of_run built).prepares solved removed numbered
  obtain ⟨outcome, d, rebuilt, _⟩ := prepares.searched.reconstruct prepares.sturdy.wired plan []
  refine ⟨outcome, d, rebuilt, reconstruct_steps prepares.sturdy rebuilt, fun mid steps => ?_⟩
  have whole := steps.whole (prepares.whole built fits)
  refine ⟨whole.graph, fun note member name => whole.quiet member name, ?_⟩
  intro next env b o rest block block' executes
  have balanced := (executes.balanced whole.sturdy whole.graph).1
  have enough := executes.enough
  omega

/-- Text is put together: an object is created, its constructor called, a part added, and the text taken from it. -/
def MethodInput.greeting : MethodInput where
  info := { MethodInfo.plain "greeting" 0 2 with result := .string }
  ops :=
    let builder := .object "java.lang.StringBuilder"
    [⟨0, 0, -1, .create builder⟩, ⟨0, 0, -1, .dup .dup⟩, ⟨0, 0, -1, .invoke ⟨builder, "<init>", [], .void, .none⟩ true⟩,
      ⟨0, 0, -1, .push .string (.string "hello")⟩,
      ⟨0, 0, -1, .invoke ⟨builder, "append", [.string], builder, .none⟩ false⟩,
      ⟨0, 0, -1, .invoke ⟨builder, "toString", [], .string, .none⟩ false⟩, ⟨0, 0, -1, .leave .string⟩]
  exceptions := []

/-- All operations of the method become one statement, the first of them being the creation of the object. -/
theorem Graph.reconstruct_balanced_greeting : ∃ g g₁ count g₂ g₃ outcome d next env b o rest block block',
    (∀ o ∈ MethodInput.greeting.ops, o.instr.ResultFits) ∧
    (Graph.ofMethod .greeting).run = .ok (.ok g) ∧ g.solve {} = .ok (.ok (), g₁) ∧
    g₁.removeUnreachable = .ok (count, g₂) ∧ g₂.renumber = .ok g₃ ∧
    g₃.reconstruct ⟨.none, {}⟩ [] = .ok (outcome, d) ∧ d.graph.Whole ∧
    (∀ note ∈ d.notes, ∀ name, note.message ≠ "stack balance violated by " ++ name) ∧
    (∀ entry ∈ d.graph.live, entry.2.ops = [] ∧ entry.2.stmts.length = 1) ∧
    Draft.Executes ⟨.none, {}⟩ env b o rest block block' ⟨g₃, []⟩ next ∧
    block'.stack.length = block.stack.length - o.instr.takes + o.instr.gives := by
  have fits : ∀ o ∈ MethodInput.greeting.ops, o.instr.ResultFits := by
    simp [MethodInput.greeting, Instr.ResultFits, MethodRef.isConstructor, MethodRef.returnsVoid, JavaType.string]
  have shaped : (solved? .greeting {}).any fun g₁ => g₁.removeUnreachable.toOption.any fun r =>
      r.2.renumber.toOption.any fun g₃ =>
        (g₃.blocks[g₃.start]?.any fun block => block.ops.head?.any fun o =>
          o.instr.takes = 0 ∧ movesReturnAddress (Plan.setting ⟨.none, {}⟩ g₃) o = false) ∧
        (g₃.reconstruct ⟨.none, {}⟩ []).toOption.any fun r => r.2.graph.live.all fun entry =>
          entry.2.ops.isEmpty ∧ entry.2.stmts.length = 1 := by decide +kernel
  obtain ⟨g, g₁, built, solved⟩ := solves_of_isSome (show (solved? .greeting {}).isSome by decide +kernel)
  have given : solved? .greeting {} = some g₁ := by simp [solved?, Building.result?, built, solved]
  rw [given, Option.any_some] at shaped
  obtain ⟨⟨count, g₂⟩, removed, shaped⟩ := of_any_toOption shaped
  obtain ⟨g₃, numbered, shaped⟩ := of_any_toOption shaped
  obtain ⟨first, last⟩ := of_decide_eq_true shaped
  obtain ⟨block, found, first⟩ := (Option.any_eq_true _ _).mp first
  obtain ⟨o, atHead, first⟩ := (Option.any_eq_true _ _).mp first
  obtain ⟨takes, onValues⟩ := of_decide_eq_true first
  obtain ⟨⟨outcome, d⟩, rebuilt, done⟩ := of_any_toOption last
  obtain ⟨rest, ops⟩ := List.head?_eq_some_iff.mp atHead
  obtain ⟨_, dead, prepares⟩ := ((ofMethod_yields _).of_run built).prepares solved removed numbered
  obtain ⟨block', next, executes⟩ : ∃ block' next, Draft.Executes ⟨.none, {}⟩ _ g₃.start o rest block block' ⟨g₃, []⟩ next :=
    Draft.Executes.exists prepares.sturdy found ops onValues (by omega)
  obtain ⟨_, _, rebuilt', steps, all⟩ := @reconstruct_balanced _ g g₁ g₂ g₃ ⟨.none, {}⟩ count fits built solved removed numbered
  cases Except.ok.inj (rebuilt.symm.trans rebuilt')
  refine ⟨g, g₁, count, g₂, g₃, outcome, d, next, _, _, o, rest, block, block', fits, built, solved, removed, numbered,
    rebuilt, (all d steps).1, (all d steps).2.1, fun entry member => ?_, executes, (all _ .refl).2.2 _ _ _ _ _ _ _ executes⟩
  obtain ⟨left, single⟩ := of_decide_eq_true (List.all_eq_true.mp done entry member)
  exact ⟨List.isEmpty_iff.mp left, single⟩

end Unstack
