import Mathlib.Logic.Relation
import Unstack.Proofs.Recovery.Safe

namespace Unstack

variable {o : Operation}

namespace Block

def put (s : Scratch) (block : Block) : Block := { block with stack := s.stack, stmts := s.stmts }

def withOps (ops : List Operation) (block : Block) : Block := { block with ops }

def emit (stmt : Stmt) (block : Block) : Block := { block with stmts := block.stmts ++ [stmt] }

def givenUp (block : Block) : Block := { block with unreconstructed := true }

theorem keepsWiring_put (s : Scratch) : Graph.KeepsWiring (put s) := fun _ => ⟨rfl, rfl, rfl⟩

theorem keepsWiring_withOps (ops : List Operation) : Graph.KeepsWiring (withOps ops) := fun _ => ⟨rfl, rfl, rfl⟩

theorem keepsWiring_emit (stmt : Stmt) : Graph.KeepsWiring (emit stmt) := fun _ => ⟨rfl, rfl, rfl⟩

theorem keepsWiring_givenUp : Graph.KeepsWiring givenUp := fun _ => ⟨rfl, rfl, rfl⟩

end Block

namespace Content

def put (s : Scratch) (c : Content) : Content := { c with stack := s.stack, stmts := s.stmts }

def emit (stmt : Stmt) (c : Content) : Content := { c with stmts := c.stmts ++ [stmt] }

end Content

/-- The value that a switch is on may stand inside the one that the operation takes: behind the hash of a string,
or behind the number of a constant. -/
inductive Expr.Hides : Expr → Expr → Prop where
  | same (e : Expr) : Hides e e
  | hashed {receiver inner : Expr} (name : String) (args : List Expr) : receiver.Hides inner →
    Hides (.call receiver name args) inner
  | mapped {value inner : Expr} (array : Expr) : value.Hides inner →
    Hides (.index array (.call value "ordinal" [])) inner

theorem Expr.Hides.trans {e mid inner : Expr} (first : e.Hides mid) (second : mid.Hides inner) : e.Hides inner := by
  induction first with
  | same => exact second
  | hashed name args _ ih => exact .hashed name args (ih second)
  | mapped array _ ih => exact .mapped array (ih second)

namespace Graph

variable {n : Nat} {g g' : Graph} {plan : Plan} {env : Setting} {b : BlockId}

/-- A switch at the end of `b` may have been read as one on strings or on an enum. -/
inductive Rereads (b : BlockId) (g : Graph) : Graph → Prop where
  | same : Rereads b g g
  | strings {reg : Nat} {g' : Graph} : g.recoverStringSwitch b reg = .ok (some g') → Rereads b g g'
  | names {switch : EnumSwitch} {enumType : JavaType} {facts : ClassFacts} {g' : Graph} :
    g.recoverEnumSwitch b switch enumType facts = .ok (some g') → Rereads b g g'

theorem stringSwitch_eq_ok {pc : Nat} {value value' : Expr} (run : g.stringSwitch plan b pc value = .ok (value', g')) :
    Rereads b g g' ∧ value.Hides value' := by
  unfold stringSwitch at run
  split at run
  · split at run
    · obtain ⟨r, found, run⟩ := bind_eq_ok.mp run
      cases r with
      | none =>
        cases run
        exact ⟨.same, .same _⟩
      | some read =>
        cases run
        exact ⟨.strings found, .hashed _ _ (.same _)⟩
    · cases run
      exact ⟨.same, .same _⟩
  · cases run
    exact ⟨.same, .same _⟩

theorem enumSwitch_eq_ok {pc : Nat} {value value' : Expr} (run : g.enumSwitch plan b pc value = .ok (value', g')) :
    Rereads b g g' ∧ value.Hides value' := by
  unfold enumSwitch at run
  split at run
  · split at run
    · rename_i switch enumType shaped _
      obtain ⟨r, found, run⟩ := bind_eq_ok.mp run
      cases r with
      | none =>
        cases run
        exact ⟨.same, .same _⟩
      | some read =>
        cases run
        refine ⟨.names found, ?_⟩
        unfold Expr.enumSwitch? at shaped
        split at shaped
        · obtain ⟨map, _, rfl⟩ := Option.map_eq_some_iff.mp shaped
          exact .mapped _ (.same _)
        · cases shaped
    · cases run
      exact ⟨.same, .same _⟩
  · cases run
    exact ⟨.same, .same _⟩

/-- Reading a switch in another way takes nothing from the blocks that stay in use, and adds none. -/
theorem Rereads.keeps (rereads : Rereads b g g') (sturdy : Sturdy n g) :
    Sturdy n g' ∧ (∀ i, g'.contentOf i = g.contentOf i) ∧ ∀ i, g'.Live i → g.Live i := by
  cases rereads with
  | same => exact ⟨sturdy, fun _ => rfl, fun _ => id⟩
  | strings run =>
    have inside : g.start < g.size := sturdy.lt sturdy.start
    have reads := sturdy.wired.recoverStringSwitch_some inside run
    refine ⟨reads.sturdy sturdy, fun i => ?_, fun i kept => ?_⟩ <;>
      obtain ⟨outs, _, _, _, table, dead, _, _, _, _, _, _, _, rfl, _⟩ := reads
    · rw [contentOf_withoutBlocks, contentOf_without, contentOf_withCases]
    · rw [withoutBlocks_live, without_live, withCases_live] at kept
      exact kept.1
  | names run =>
    have labelled := sturdy.wired.recoverEnumSwitch_some run
    have blocks : g'.blocks = g.blocks := by rw [labelled.rest]
    exact ⟨labelled.sturdy sturdy, fun i => by simp only [contentOf, blocks], fun i => by simp only [Live, blocks, imp_self]⟩

/-- The graph in which a block has the given state. -/
def scratched (g : Graph) (b : BlockId) (s : Scratch) : Graph :=
  { g with nextValue := s.nextValue }.altered b (Block.put s)

theorem scratched_live (s : Scratch) (i : BlockId) : (g.scratched b s).Live i ↔ g.Live i :=
  altered_live (Block.keepsWiring_put s) i

theorem contentOf_scratched (s : Scratch) (i : BlockId) :
    (g.scratched b s).contentOf i = if b = i then (g.contentOf i).map (Content.put s) else g.contentOf i :=
  contentOf_altered (fun _ => rfl) i

theorem Sturdy.scratched (sturdy : Sturdy n g) (s : Scratch) : Sturdy n (g.scratched b s) :=
  (sturdy.withNextValue s.nextValue).altered (Block.keepsWiring_put s)

/-- An operation is executed on the state of its block. A switch may be read in another way before its statement
is added. -/
theorem executeOp_eq_ok (run : g.executeOp plan env b o = .ok g') :
    ∃ block s, g.blocks[b]? = some block ∧ (g.scratch block).execute env o.pc o.instr = .ok s ∧
      (g' = g.scratched b s ∨ (∃ keys targets fallback, o.instr = .switch keys targets fallback) ∧
        ∃ mid mid' value, Rereads b (g.scratched b s) mid ∧ Rereads b mid mid' ∧
          (g.scratch block).popExpr.1.Hides value ∧ g' = mid'.altered b (Block.emit (.switch value))) := by
  obtain ⟨block, found, run⟩ := bind_eq_ok.mp run
  obtain ⟨s, executed, run⟩ := bind_eq_ok.mp run
  obtain ⟨g₁, put, run⟩ := bind_eq_ok.mp run
  obtain ⟨_, rfl⟩ := modifyBlock_eq_ok.mp put
  refine ⟨block, s, block_eq_ok.mp found, executed, ?_⟩
  split at run
  · rename_i keys targets fallback isSwitch
    obtain ⟨⟨value, mid⟩, first, run⟩ := bind_eq_ok.mp run
    obtain ⟨⟨value', mid'⟩, second, run⟩ := bind_eq_ok.mp run
    obtain ⟨_, rfl⟩ := modifyBlock_eq_ok.mp run
    obtain ⟨rereads, hides⟩ := stringSwitch_eq_ok first
    obtain ⟨rereads', hides'⟩ := enumSwitch_eq_ok second
    exact .inr ⟨⟨keys, targets, fallback, isSwitch⟩, mid, mid', value', rereads, rereads', hides.trans hides', rfl⟩
  · cases run
    exact .inl rfl

/-- What an operation leaves: its block has the state that it gives, and the statement of a switch behind it. -/
structure Executed (g g' : Graph) (env : Setting) (b : BlockId) (o : Operation) (block : Block) (s : Scratch)
    (stmts : List Stmt) : Prop where
  found : g.blocks[b]? = some block
  executed : (g.scratch block).execute env o.pc o.instr = .ok s
  live (i : BlockId) : g'.Live i → g.Live i
  others (i : BlockId) : b ≠ i → g'.contentOf i = g.contentOf i
  content : g'.contentOf b = some { block.content with stack := s.stack, stmts := s.stmts ++ stmts }
  switched : stmts = [] ∨ (∃ keys targets fallback, o.instr = .switch keys targets fallback) ∧
    ∃ value, (g.scratch block).popExpr.1.Hides value ∧ stmts = [.switch value]

theorem Sturdy.executed (sturdy : Sturdy n g) (run : g.executeOp plan env b o = .ok g') :
    Sturdy n g' ∧ ∃ block s stmts, Executed g g' env b o block s stmts := by
  obtain ⟨block, s, found, executed, step⟩ := executeOp_eq_ok run
  have content : (g.scratched b s).contentOf b = some { block.content with stack := s.stack, stmts := s.stmts } := by
    rw [contentOf_scratched, if_pos rfl, contentOf_eq found]
    rfl
  have others (i : BlockId) (other : b ≠ i) : (g.scratched b s).contentOf i = g.contentOf i := by
    rw [contentOf_scratched, if_neg other]
  have sturdy₁ := sturdy.scratched (b := b) s
  rcases step with rfl | ⟨isSwitch, mid, mid', value, rereads, rereads', hides, rfl⟩
  · refine ⟨sturdy₁, block, s, [], found, executed, fun i => (scratched_live s i).mp, others, ?_, .inl rfl⟩
    rw [content, List.append_nil]
  · obtain ⟨sturdy₂, same₂, live₂⟩ := rereads.keeps sturdy₁
    obtain ⟨sturdy₃, same₃, live₃⟩ := rereads'.keeps sturdy₂
    have emitted (i : BlockId) : (mid'.altered b (Block.emit (.switch value))).contentOf i =
        if b = i then (mid'.contentOf i).map (Content.emit (.switch value)) else mid'.contentOf i :=
      contentOf_altered (fun _ => rfl) i
    refine ⟨sturdy₃.altered (Block.keepsWiring_emit _), block, s, [.switch value], found, executed, fun i live => ?_,
      fun i other => ?_, ?_, .inr ⟨isSwitch, value, hides, rfl⟩⟩
    · exact (scratched_live s i).mp (live₂ i (live₃ i ((altered_live (Block.keepsWiring_emit _) i).mp live)))
    · rw [emitted, if_neg other, same₃, same₂, others i other]
    · rw [emitted, if_pos rfl, same₃, same₂, content]
      rfl

/-- What a handler does first: it drops its first operation, which may declare a variable, or it starts with the
exception. -/
inductive Enters (g : Graph) (b : BlockId) : Graph → Prop where
  | same : Enters g b g
  | declared {block : Block} {o : Operation} {rest : List Operation} (t : JavaType) (name : String) :
    g.blocks[b]? = some block → block.ops = o :: rest →
    Enters g b ((g.altered b (Block.withOps rest)).altered b (Block.emit (.declare t name none)))
  | dropped {block : Block} {o : Operation} {rest : List Operation} : g.blocks[b]? = some block → block.ops = o :: rest →
    Enters g b (g.altered b (Block.withOps rest))
  | caught (name : String) : Enters g b (g.pushed b (.var name))

theorem enterHandler_eq_ok (run : g.enterHandler env b = .ok g') : Enters g b g' := by
  obtain ⟨block, found, run⟩ := bind_eq_ok.mp run
  obtain ⟨handles, _, run⟩ := bind_eq_ok.mp run
  split at run
  · cases run
    exact .same
  split at run
  · cases run
    exact .same
  rename_i first rest ops
  split at run
  · obtain ⟨g₁, set, run⟩ := bind_eq_ok.mp run
    obtain ⟨_, rfl⟩ := modifyBlock_eq_ok.mp set
    obtain ⟨_, rfl⟩ := modifyBlock_eq_ok.mp run
    exact .declared _ _ (block_eq_ok.mp found) ops
  · obtain ⟨_, rfl⟩ := modifyBlock_eq_ok.mp run
    exact .dropped (block_eq_ok.mp found) ops
  · obtain ⟨_, rfl⟩ := pushValue_eq_ok.mp run
    exact .caught _

theorem Enters.sturdy (enters : Enters g b g') (sturdy : Sturdy n g) : Sturdy n g' := by
  cases enters with
  | same => exact sturdy
  | declared t name _ _ => exact (sturdy.altered (Block.keepsWiring_withOps _)).altered (Block.keepsWiring_emit _)
  | dropped _ _ => exact sturdy.altered (Block.keepsWiring_withOps _)
  | caught name => exact sturdy.pushed b _

theorem Renumbered.size (numbered : Renumbered g g') : g'.blocks.size = g.blocks.size := by
  have same (i : BlockId) : g'.blocks.size ≤ i ↔ g.blocks.size ≤ i := by
    obtain ⟨number, found⟩ := numbered.blocks i
    rw [← Array.getElem?_eq_none_iff, ← Array.getElem?_eq_none_iff, found, Option.map_eq_none_iff]
  exact Nat.le_antisymm ((same _).mpr (Nat.le_refl _)) ((same _).mp (Nat.le_refl _))

theorem Sturdy.renumbered (sturdy : Sturdy n g) (numbered : Renumbered g g') : Sturdy n g' :=
  ⟨numbered.wired sturdy.wired, numbered.size.trans sturdy.size, numbered.start ▸ sturdy.start⟩

end Graph

namespace Draft

open Unstack.Graph

variable {n : Nat} {plan : Plan} {b : BlockId} {d d' : Draft}

/-- The first operation of `b` is executed, on a stack that holds what it takes. A message tells if the stack does not
change as the operation declares. -/
structure Executes (plan : Plan) (env : Setting) (b : BlockId) (o : Operation) (rest : List Operation) (block block' : Block)
    (d d' : Draft) : Prop where
  found : d.graph.blocks[b]? = some block
  ops : block.ops = o :: rest
  onValues : movesReturnAddress env o = false
  enough : o.instr.takes ≤ block.stack.length
  run : (d.graph.altered b (Block.withOps rest)).executeOp plan env b o = .ok d'.graph
  found' : d'.graph.blocks[b]? = some block'
  notes : d'.notes = d.notes ++ balanceNote o block.stack.length block'.stack.length

theorem Executes.executed {env : Setting} {rest : List Operation} {block block' : Block}
    (executes : Executes plan env b o rest block block' d d') (sturdy : Sturdy n d.graph) :
    Sturdy n d'.graph ∧ ∃ s stmts,
      Executed (d.graph.altered b (Block.withOps rest)) d'.graph env b o (block.withOps rest) s stmts ∧
      block'.content = { (block.withOps rest).content with stack := s.stack, stmts := s.stmts ++ stmts } := by
  obtain ⟨sturdy', block₁, s, stmts, step⟩ :=
    (sturdy.altered (b := b) (Block.keepsWiring_withOps rest)).executed executes.run
  cases (altered_self executes.found _).some_unique step.found
  have content := step.content
  rw [contentOf_eq executes.found', Option.some.injEq] at content
  exact ⟨sturdy', s, stmts, step, content⟩

/-- One change on the way to convert the block `b`. -/
inductive Turn (plan : Plan) (b : BlockId) (d : Draft) : Draft → Prop where
  | enter {g' : Graph} : Enters d.graph b g' → Turn plan b d { d with graph := g' }
  | skip {block : Block} {o : Operation} {rest : List Operation} : d.graph.blocks[b]? = some block →
    block.ops = o :: rest → Turn plan b d { d with graph := d.graph.altered b (Block.withOps rest) }
  | execute {env : Setting} {o : Operation} {rest : List Operation} {block block' : Block} {d' : Draft} :
    Executes plan env b o rest block block' d d' → Turn plan b d d'

theorem Turn.sturdy (turn : Turn plan b d d') (sturdy : Sturdy n d.graph) : Sturdy n d'.graph := by
  cases turn with
  | enter enters => exact enters.sturdy sturdy
  | skip _ _ => exact sturdy.altered (Block.keepsWiring_withOps _)
  | execute executes => exact (executes.executed sturdy).1

/-- One change of the reconstruction. -/
inductive Step (plan : Plan) (d : Draft) : Draft → Prop where
  | conditional {b : BlockId} {g' : Graph} : d.graph.foldConditional b = .ok (some g') →
    Step plan d { d with graph := g' }
  | fuse {b : BlockId} {g' : Graph} : d.graph.fuseBranches b = .ok (some g') → Step plan d { d with graph := g' }
  | cached {b : BlockId} {g' : Graph} : d.graph.foldCachedClass b = .ok (some g') → Step plan d { d with graph := g' }
  | turn {b : BlockId} {d' : Draft} : Turn plan b d d' → Step plan d d'
  | giveUp {b : BlockId} {block : Block} : d.graph.blocks[b]? = some block →
    Step plan d ⟨d.graph.altered b Block.givenUp,
      d.notes ++ [.error (block.ops.head?.map Operation.pc) "stack underflow"]⟩
  | renumber {g' : Graph} : d.graph.renumber = .ok g' → Step plan d { d with graph := g' }

/-- No change of the reconstruction leaves a name without a meaning. -/
theorem Step.sturdy (step : Step plan d d') (sturdy : Sturdy n d.graph) : Sturdy n d'.graph := by
  cases step with
  | conditional run =>
    obtain ⟨_, entering, _⟩ := bind_eq_ok.mp run
    exact (sturdy.foldConditional (sturdy.size ▸ lt_of_preds entering)).of_run run
  | fuse run =>
    obtain ⟨_, entering, _⟩ := bind_eq_ok.mp run
    exact (sturdy.fuseBranches (sturdy.size ▸ lt_of_preds entering)).of_run run
  | cached run =>
    obtain ⟨_, found, _⟩ := bind_eq_ok.mp run
    exact (sturdy.foldCachedClass (sturdy.size ▸ lt_of_block found)).of_run run
  | turn turn => exact turn.sturdy sturdy
  | giveUp _ => exact sturdy.altered Block.keepsWiring_givenUp
  | renumber run => exact sturdy.renumbered (sturdy.wired.searched run).1

abbrev Steps (plan : Plan) : Draft → Draft → Prop := Relation.ReflTransGen (Step plan)

/-- What holds at the start and is kept by every step holds all along. -/
theorem Steps.keep (holds : Draft → Prop) (steps : Steps plan d d') (initial : holds d)
    (next : ∀ d d', holds d → Step plan d d' → holds d') : holds d' := by
  induction steps with
  | refl => exact initial
  | tail _ step ih => exact next _ _ ih step

theorem Steps.sturdy (steps : Steps plan d d') (sturdy : Sturdy n d.graph) : Sturdy n d'.graph :=
  steps.keep (fun d => Sturdy n d.graph) sturdy fun _ _ sturdy step => step.sturdy sturdy

end Draft

namespace Graph

variable {n : Nat} {plan : Plan} {env : Setting} {b : BlockId} {d d' : Draft} {complete : Bool}

/-- Operations are executed one after the other. The work on a block is complete if none is left. -/
theorem executeOps_turns {ops : List Operation} {block : Block} (sturdy : Sturdy n d.graph)
    (found : d.graph.blocks[b]? = some block) (remaining : block.ops = ops)
    (run : executeOps plan env b ops d = .ok (complete, d')) :
    Relation.ReflTransGen (Draft.Turn plan b) d d' ∧
      ∃ block', d'.graph.blocks[b]? = some block' ∧ (complete = true ↔ block'.ops = []) := by
  induction ops generalizing d block with
  | nil =>
    cases run
    exact ⟨.refl, block, found, by simp [remaining]⟩
  | cons o rest ih =>
    unfold executeOps at run
    split at run
    · obtain ⟨g₁, changed, run⟩ := bind_eq_ok.mp run
      obtain ⟨_, rfl⟩ := modifyBlock_eq_ok.mp changed
      obtain ⟨turns, last⟩ := ih (d := { d with graph := _ }) (sturdy.altered (Block.keepsWiring_withOps rest))
        (altered_self found _) rfl run
      exact ⟨.head (.skip found remaining) turns, last⟩
    rename_i onValues
    obtain ⟨block₀, found₀, run⟩ := bind_eq_ok.mp run
    cases found.some_unique (block_eq_ok.mp found₀)
    simp only at run
    split at run
    · cases run
      exact ⟨.refl, block, found, by simp [remaining]⟩
    rename_i enough
    obtain ⟨g₁, changed, run⟩ := bind_eq_ok.mp run
    obtain ⟨_, rfl⟩ := modifyBlock_eq_ok.mp changed
    obtain ⟨g₂, ran, run⟩ := bind_eq_ok.mp run
    obtain ⟨block₂, found₂, run⟩ := bind_eq_ok.mp run
    have executes : Draft.Executes plan env b o rest block block₂ d
        ⟨g₂, d.notes ++ balanceNote o block.stack.length block₂.stack.length⟩ :=
      ⟨found, remaining, Bool.not_eq_true _ ▸ onValues, not_lt.mp enough, ran, block_eq_ok.mp found₂, rfl⟩
    obtain ⟨sturdy₂, s, stmts, _, content⟩ := executes.executed sturdy
    obtain ⟨turns, last⟩ := ih (d := ⟨g₂, _⟩) sturdy₂ (block_eq_ok.mp found₂) (congrArg Content.ops content) run
    exact ⟨.head (.execute executes) turns, last⟩

/-- Converting a block is a row of small changes to it. -/
theorem convert_turns (sturdy : Sturdy n d.graph) (run : convert plan b d = .ok (complete, d')) :
    Relation.ReflTransGen (Draft.Turn plan b) d d' ∧
      ∃ block', d'.graph.blocks[b]? = some block' ∧ (complete = true ↔ block'.ops = []) := by
  obtain ⟨g₁, entering, run⟩ := bind_eq_ok.mp run
  obtain ⟨block, found, run⟩ := bind_eq_ok.mp run
  have enters := enterHandler_eq_ok entering
  obtain ⟨turns, last⟩ := executeOps_turns (d := { d with graph := g₁ }) (enters.sturdy sturdy) (block_eq_ok.mp found)
    rfl run
  exact ⟨.head (.enter enters) turns, last⟩

end Graph

namespace Draft

open Unstack.Graph

variable {n : Nat} {plan : Plan} {b : BlockId} {d₀ d : Draft}

section Folding

variable {fold : Graph → Checked (Option Graph)}
  (step : ∀ (d : Draft) (g' : Graph), fold d.graph = .ok (some g') → Step plan d { d with graph := g' })

include step

theorem applyOnce_steps (reached : Steps plan d₀ d) : Ensures (applyOnce fold) d fun _ => Steps plan d₀ := by
  refine .get_bind (.lift_bind fun folded run => ?_)
  cases folded with
  | none => exact .pure reached
  | some g => exact Ensures.keep (.modify (reached.tail (step d g run))) fun _ _ reached' => .pure reached'

theorem exhaust_steps (pass : Pass) (limit left : Nat) (reached : Steps plan d₀ d) :
    Ensures (exhaust pass limit fold left) d fun _ => Steps plan d₀ := by
  induction left generalizing d with
  | zero =>
    refine (applyOnce_steps step reached).keep fun applied d' reached' => ?_
    cases applied with
    | true => exact .throw reached'
    | false => exact .pure reached'
  | succ left ih =>
    refine (applyOnce_steps step reached).keep fun applied d' reached' => ?_
    cases applied with
    | true => exact ih reached'
    | false => exact .pure reached'

end Folding

theorem Turn.steps {d' : Draft} (turns : Relation.ReflTransGen (Turn plan b) d d') : Steps plan d d' :=
  Relation.ReflTransGen.mono (fun _ _ => Step.turn) _ _ turns

/-- Whatever comes of the work on a block, it is done step by step. -/
theorem recover_steps (sturdy : Sturdy n d₀.graph) (reached : Steps plan d₀ d) :
    Ensures (recover plan b) d fun _ => Steps plan d₀ := by
  refine .get_bind (.lift_bind fun block _ => ?_)
  split
  · exact .pure reached
  have conditional : Ensures (foldAll .conditional plan Graph.foldConditional b) d fun _ => Steps plan d₀ :=
    .get_bind (exhaust_steps (fun _ _ => .conditional) _ _ _ reached)
  have fuse {d : Draft} (reached : Steps plan d₀ d) :
      Ensures (foldAll .shortCircuit plan Graph.fuseBranches b) d fun _ => Steps plan d₀ :=
    .get_bind (exhaust_steps (fun _ _ => .fuse) _ _ _ reached)
  refine conditional.keep fun _ d₁ reached₁ => .get_bind (.lift_bind fun converted run => ?_)
  obtain ⟨complete, d₂⟩ := converted
  have reached₂ := reached₁.trans (Turn.steps (convert_turns (reached₁.sturdy sturdy) run).1)
  refine .set_bind ?_
  cases complete with
  | true => exact fuse reached₂
  | false =>
    refine .lift_bind fun folded ran => ?_
    cases folded with
    | some g => exact .modify (reached₂.tail (.cached ran))
    | none =>
      refine Ensures.keep (.get_bind (.lift_bind fun block found => .lift_bind fun g changed => ?_)) fun _ d₃ => fuse
      obtain ⟨_, rfl⟩ := modifyBlock_eq_ok.mp changed
      exact .modify (reached₂.tail (.giveUp (block_eq_ok.mp found)))

end Draft

/-- A reconstruction is made of steps, and so is one that ends early. -/
theorem Graph.reconstruct_steps {n : Nat} {g : Graph} {plan : Plan} {notes : List Diagnostic}
    {outcome : Except AnalysisError Unit} {d : Draft} (sturdy : Graph.Sturdy n g)
    (run : g.reconstruct plan notes = .ok (outcome, d)) : Draft.Steps plan ⟨g, notes⟩ d := by
  have work : Ensures (do
      g.reversePostorder.forM (Draft.recover plan)
      Draft.setGraph (← (← Draft.getGraph).renumber)) ⟨g, notes⟩ fun _ => Draft.Steps plan ⟨g, notes⟩ := by
    refine Ensures.keep (.forM _ .refl fun b _ d reached => Draft.recover_steps sturdy reached) fun _ d reached => ?_
    exact .get_bind (.lift_bind fun g' numbered => .modify (reached.tail (.renumber numbered)))
  exact work outcome d run

end Unstack
