import Unstack.Proofs.Graph.DepthFirst
import Unstack.Proofs.Recovery.Switching
import Unstack.Recovery.Block

namespace Unstack

namespace Scratch

theorem dup_total {s : Scratch} {form : DupForm} (enough : form.shape.1 + form.shape.2 ≤ s.stack.length) :
    ∃ s', s.dup form = .ok s' := by
  have fits : ¬ s.stack.length < form.shape.1 + form.shape.2 := by omega
  exact ⟨_, if_neg fits⟩

theorem swap_total {s : Scratch} (enough : 2 ≤ s.stack.length) : ∃ s', s.swap = .ok s' := by
  obtain ⟨stack, stmts, nextValue⟩ := s
  match stack, enough with
  | a :: b :: rest, _ => exact ⟨_, rfl⟩

/-- The position of an element is checked before the element is replaced. -/
theorem fillElement?_total {s : Scratch} {array : StackValue} {position value : Expr} {filled : Checked Scratch}
    (fills : fillElement? array position value s = some filled) : ∃ s', filled = .ok s' := by
  unfold fillElement? at fills
  obtain ⟨⟨t, dims, values⟩, _, fills⟩ := Option.bind_eq_some_iff.mp fills
  obtain ⟨i, _, fills⟩ := Option.bind_eq_some_iff.mp fills
  split at fills
  · rename_i inside
    obtain ⟨stack, _, fills⟩ := Option.bind_eq_some_iff.mp fills
    simp only [Bool.and_eq_true, decide_eq_true_eq] at inside
    have below : i.toNat < values.length := by omega
    rw [if_pos below] at fills
    exact ⟨_, (Option.some.inj fills).symm⟩
  · cases fills

theorem storeElement_total (env : Setting) (s : Scratch) : ∃ s', s.storeElement env = .ok s' := by
  unfold storeElement
  simp only
  split
  · rename_i filled fills
    exact fillElement?_total fills
  · exact ⟨_, rfl⟩

/-- An operation can be executed where the stack holds the values that it takes. -/
theorem execute_total (env : Setting) (pc : Nat) (s : Scratch) (instr : Instr) (enough : instr.takes ≤ s.stack.length) :
    ∃ s', s.execute env pc instr = .ok s' := by
  cases instr with
  | dup form => exact dup_total enough
  | swap => exact swap_total enough
  | arrayStore t => exact s.storeElement_total env
  | leave t =>
    by_cases nothing : t = .void
    · exact ⟨_, if_pos nothing⟩
    · exact ⟨_, if_neg nothing⟩
  | _ => exact ⟨_, rfl⟩

end Scratch

namespace Graph

variable {n : Nat} {g : Graph} {b : BlockId}

theorem Sturdy.putScratch (sturdy : Sturdy n g) (inside : b < n) (s : Scratch) : Keeps n (g.putScratch b s) :=
  (sturdy.withNextValue s.nextValue).modifyBlock inside _ fun _ => ⟨rfl, rfl, rfl⟩

theorem Sturdy.setOps (sturdy : Sturdy n g) (inside : b < n) (ops : List Operation) : Keeps n (g.setOps b ops) :=
  sturdy.modifyBlock inside _ fun _ => ⟨rfl, rfl, rfl⟩

theorem Sturdy.enterHandler (sturdy : Sturdy n g) (env : Setting) (inside : b < n) :
    Keeps n (g.enterHandler env b) := by
  obtain ⟨block, found, _⟩ := sturdy.block_total inside
  obtain ⟨ins, entering, _⟩ := sturdy.wired.entering (sturdy.lt inside)
  simp only [Graph.enterHandler, found, isHandler, entering, ok_bind, pure_bind]
  split
  · exact ⟨g, rfl, sturdy⟩
  split
  · exact ⟨g, rfl, sturdy⟩
  rename_i first rest _
  split
  · obtain ⟨g₁, run₁, sturdy₁⟩ := sturdy.setOps inside rest
    simp only [run₁, ok_bind]
    exact sturdy₁.pushStmt inside _
  · exact sturdy.setOps inside rest
  · exact sturdy.pushValue inside _

/-- A switch that cannot be read in another way stays as it is. -/
theorem Sturdy.orSame (sturdy : Sturdy n g) {fold : Checked (Option Graph)} (folds : Gives fold (Sturdy n)) (read kept : Expr) :
    ∃ e g', (do
      match ← fold with
      | some g => return (read, g)
      | none => return (kept, g) : Checked (Expr × Graph)) = .ok (e, g') ∧ Sturdy n g' := by
  obtain ⟨r, run, sturdy'⟩ := folds
  simp only [run, ok_bind]
  cases r with
  | none => exact ⟨kept, g, rfl, sturdy⟩
  | some g' => exact ⟨read, g', rfl, sturdy' g' rfl⟩

theorem Sturdy.stringSwitch (sturdy : Sturdy n g) (plan : Plan) (inside : b < n) (pc : Nat) (value : Expr) :
    ∃ e g', g.stringSwitch plan b pc value = .ok (e, g') ∧ Sturdy n g' := by
  unfold Graph.stringSwitch
  split
  · split
    · exact sturdy.orSame (sturdy.recoverStringSwitch inside _) _ _
    · exact ⟨_, g, rfl, sturdy⟩
  · exact ⟨_, g, rfl, sturdy⟩

theorem Sturdy.enumSwitch (sturdy : Sturdy n g) (plan : Plan) (inside : b < n) (pc : Nat) (value : Expr) :
    ∃ e g', g.enumSwitch plan b pc value = .ok (e, g') ∧ Sturdy n g' := by
  unfold Graph.enumSwitch
  split
  · split
    · exact sturdy.orSame (sturdy.recoverEnumSwitch inside _ _ _) _ _
    · exact ⟨_, g, rfl, sturdy⟩
  · exact ⟨_, g, rfl, sturdy⟩

theorem Sturdy.executeOp (sturdy : Sturdy n g) (plan : Plan) (env : Setting) {block : Block} {o : Operation}
    (found : g.blocks[b]? = some block) (enough : o.instr.takes ≤ block.stack.length) :
    Keeps n (g.executeOp plan env b o) := by
  have inside : b < n := sturdy.size ▸ found.lt_size
  obtain ⟨s, executed⟩ := (g.scratch block).execute_total env o.pc o.instr enough
  obtain ⟨g₁, run₁, sturdy₁⟩ := sturdy.putScratch inside s
  simp only [Graph.executeOp, block_eq_ok.mpr found, executed, run₁, ok_bind]
  split
  · obtain ⟨value, g₂, run₂, sturdy₂⟩ := sturdy₁.stringSwitch plan inside o.pc (g.scratch block).popExpr.1
    obtain ⟨value', g₃, run₃, sturdy₃⟩ := sturdy₂.enumSwitch plan inside o.pc value
    obtain ⟨g₄, run₄, sturdy₄⟩ := sturdy₃.pushStmt inside (.switch value')
    exact ⟨g₄, by simp only [run₂, run₃, run₄, ok_bind], sturdy₄⟩
  · exact ⟨g₁, rfl, sturdy₁⟩

/-- By induction on the operations that are left: each of them finds its values or ends the work on the block. -/
theorem executeOps_total (plan : Plan) (env : Setting) (inside : b < n) (ops : List Operation) {d : Draft}
    (sturdy : Sturdy n d.graph) :
    ∃ complete d', executeOps plan env b ops d = .ok (complete, d') ∧ Sturdy n d'.graph := by
  induction ops generalizing d with
  | nil => exact ⟨true, d, rfl, sturdy⟩
  | cons o rest ih =>
    obtain ⟨g₁, run₁, sturdy₁⟩ := sturdy.setOps inside rest
    unfold executeOps
    split
    · simp only [run₁, ok_bind]
      exact ih sturdy₁
    · obtain ⟨block, atBlock, found⟩ := sturdy.block_total inside
      simp only [atBlock, ok_bind]
      split
      · exact ⟨false, d, rfl, sturdy⟩
      · have kept : g₁.blocks[b]? = some { block with ops := rest } := by
          unfold Graph.setOps at run₁
          rw [modifyBlock_eq (sturdy.lt inside)] at run₁
          cases run₁
          rw [Array.getElem?_modify, if_pos rfl, found]
          rfl
        obtain ⟨g₂, run₂, sturdy₂⟩ := sturdy₁.executeOp plan env kept (o := o) (by simp only; omega)
        obtain ⟨after, atAfter, _⟩ := sturdy₂.block_total inside
        simp only [run₁, run₂, atAfter, ok_bind]
        exact ih sturdy₂

/-- Converting a block meets no fault. -/
theorem convert_total (plan : Plan) (inside : b < n) {d : Draft} (sturdy : Sturdy n d.graph) :
    ∃ complete d', convert plan b d = .ok (complete, d') ∧ Sturdy n d'.graph := by
  obtain ⟨g₁, run₁, sturdy₁⟩ := sturdy.enterHandler (plan.setting d.graph) inside
  obtain ⟨block, found, _⟩ := sturdy₁.block_total inside
  simp only [convert, run₁, found, ok_bind]
  exact executeOps_total plan _ inside block.ops sturdy₁

end Graph

namespace Draft

open Unstack.Graph

variable {n : Nat} {b : BlockId} {d : Draft} {fold : Graph → Checked (Option Graph)}

/-- The step meets no fault, and every name in the graph that it leaves stands for something. -/
abbrev StaysSturdy {α : Type} (n : Nat) (x : Drafting α) (d : Draft) : Prop := Safe x d fun _ d' => Sturdy n d'.graph

theorem getGraph_bind {α : Type} {next : Graph → Drafting α} {good : α → Draft → Prop}
    (follows : Safe (next d.graph) d good) : Safe (getGraph >>= next) d good := follows

theorem applyOnce_safe (folds : ∀ g, Sturdy n g → Gives (fold g) (Sturdy n)) (sturdy : Sturdy n d.graph) :
    StaysSturdy n (applyOnce fold) d := by
  obtain ⟨r, run, kept⟩ := folds d.graph sturdy
  refine getGraph_bind (.lift_bind run ?_)
  cases r with
  | none => exact .pure sturdy
  | some g =>
    refine Safe.bind (.modify (kept g rfl)) fun _ d' (sturdy' : Sturdy n d'.graph) => ?_
    exact .pure sturdy'

/-- By induction on the folds that are still allowed. -/
theorem exhaust_safe (folds : ∀ g, Sturdy n g → Gives (fold g) (Sturdy n)) (pass : Pass) (limit left : Nat)
    (sturdy : Sturdy n d.graph) : StaysSturdy n (exhaust pass limit fold left) d := by
  induction left generalizing d with
  | zero =>
    refine (applyOnce_safe folds sturdy).bind fun applied d' sturdy' => ?_
    cases applied with
    | true => exact .throw _
    | false => exact .pure sturdy'
  | succ left ih =>
    refine (applyOnce_safe folds sturdy).bind fun applied d' sturdy' => ?_
    cases applied with
    | true => exact ih sturdy'
    | false => exact .pure sturdy'

theorem foldAll_safe {fold : Graph → BlockId → Checked (Option Graph)} (folds : ∀ g, Sturdy n g → Gives (fold g b) (Sturdy n))
    (pass : Pass) (plan : Plan) (sturdy : Sturdy n d.graph) : StaysSturdy n (foldAll pass plan fold b) d :=
  getGraph_bind (exhaust_safe folds pass _ _ sturdy)

theorem giveUp_safe (inside : b < n) (sturdy : Sturdy n d.graph) : StaysSturdy n (giveUp b) d := by
  obtain ⟨block, found, _⟩ := sturdy.block_total inside
  obtain ⟨g, run, sturdy'⟩ := sturdy.modifyBlock inside (fun block => { block with unreconstructed := true })
    fun _ => ⟨rfl, rfl, rfl⟩
  exact .get_bind (.lift_bind found (.lift_bind run (.modify sturdy')))

theorem recover_safe (plan : Plan) (inside : b < n) (sturdy : Sturdy n d.graph) : StaysSturdy n (recover plan b) d := by
  obtain ⟨block, found, _⟩ := sturdy.block_total inside
  refine getGraph_bind (.lift_bind found ?_)
  split
  · exact .pure sturdy
  refine (foldAll_safe (fun g sturdy => sturdy.foldConditional inside) .conditional plan sturdy).bind
    fun _ d₁ sturdy₁ => .get_bind ?_
  obtain ⟨complete, d₂, converted, sturdy₂⟩ := convert_total plan inside sturdy₁
  have fuse {d : Draft} (sturdy : Sturdy n d.graph) :=
    foldAll_safe (fun g sturdy => sturdy.fuseBranches inside) .shortCircuit plan sturdy
  refine .lift_bind converted (.set_bind ?_)
  cases complete with
  | true => exact fuse sturdy₂
  | false =>
    obtain ⟨r, folded, kept⟩ := sturdy₂.foldCachedClass inside
    refine .lift_bind folded ?_
    cases r with
    | some g => exact .modify (kept g rfl)
    | none => exact (giveUp_safe inside sturdy₂).bind fun _ d₃ sturdy₃ => fuse sturdy₃

end Draft

/-- The reconstruction meets no fault, and if it succeeds, it leaves a graph that was just searched. -/
theorem Graph.Sturdy.reconstruct {n : Nat} {g : Graph} (sturdy : Sturdy n g) (listed : ∀ b ∈ g.postorder, b < n)
    (plan : Plan) (notes : List Diagnostic) :
    ∃ outcome d, g.reconstruct plan notes = .ok (outcome, d) ∧
      (outcome = .ok () → d.graph.Wired ∧ d.graph.Searched) := by
  have safe : Safe (do
      g.reversePostorder.forM (Draft.recover plan)
      Draft.setGraph (← (← Draft.getGraph).renumber)) ⟨g, notes⟩ fun _ d => d.graph.Wired ∧ d.graph.Searched := by
    have all : Draft.StaysSturdy n (g.reversePostorder.forM (Draft.recover plan)) ⟨g, notes⟩ :=
      .forM (fun d : Draft => Sturdy n d.graph) sturdy fun b member d sturdy' =>
        Draft.recover_safe plan (listed b (List.mem_reverse.mp member)) sturdy'
    refine all.bind fun _ d sturdy' => Draft.getGraph_bind ?_
    obtain ⟨g', run, _⟩ := sturdy'.wired.renumber (sturdy'.lt sturdy'.start)
    obtain ⟨numbered, searched'⟩ := sturdy'.wired.searched run
    exact .lift_bind run (.modify ⟨numbered.wired sturdy'.wired, searched'⟩)
  obtain ⟨outcome, d, ran, kept⟩ := safe
  exact ⟨outcome, d, ran, kept ()⟩

theorem Graph.Searched.reconstruct {g : Graph} (searched : g.Searched) (wired : g.Wired) (plan : Plan)
    (notes : List Diagnostic) :
    ∃ outcome d, g.reconstruct plan notes = .ok (outcome, d) ∧
      (outcome = .ok () → d.graph.Wired ∧ d.graph.Searched) :=
  Sturdy.reconstruct ⟨wired, rfl, searched.inside⟩
    (fun b member => wired.reachable_lt searched.inside ((searched.listed b).mp member)) plan notes

end Unstack
