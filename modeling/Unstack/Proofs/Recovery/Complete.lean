import Unstack.Proofs.Recovery.Contents

namespace Unstack

namespace Content

variable {c c' front : Content} {notes : List Diagnostic} {waits : Prop} {o : Operation} {rest : List Operation}

/-- Operations that are left are accounted for: a block that waits for its turn bears no mark; another one bears it
exactly if operations are left, and then a message names the first of them. -/
structure Accounted (notes : List Diagnostic) (waits : Prop) (c : Content) : Prop extends Orderly c where
  marked : c.unreconstructed = true ↔ ¬ waits ∧ c.ops ≠ []
  noted : c.unreconstructed = true → .error (c.ops.head?.map Operation.pc) "stack underflow" ∈ notes

namespace Accounted

theorem mono {notes' : List Diagnostic} (accounted : c.Accounted notes waits) (more : notes ⊆ notes') :
    c.Accounted notes' waits :=
  ⟨accounted.toOrderly, accounted.marked, fun marked => more (accounted.noted marked)⟩

theorem congr {waits' : Prop} (accounted : c.Accounted notes waits) (same : waits' ↔ waits) :
    c.Accounted notes waits' :=
  ⟨accounted.toOrderly, by rw [accounted.marked, same], accounted.noted⟩

theorem of_branch {cond : Expr} (accounted : c.Accounted notes waits) (ends : c.stmts.getLast? = some (.branch cond)) :
    c.ops = [] ∧ c.unreconstructed = false := by
  have done := (accounted.toOrderly.of_branch ends).1
  exact ⟨done, Bool.eq_false_iff.mpr fun marked => (accounted.marked.mp marked).2 done⟩

theorem before (accounted : c.Accounted notes waits) (done : front.ops = []) (unmarked : front.unreconstructed = false)
    (plain : ∀ stmt ∈ front.stmts, stmt.isBranch = false) : (front.before c).Accounted notes waits := by
  have ops : (front.before c).ops = c.ops := by simp [Content.before, done]
  have mark : (front.before c).unreconstructed = c.unreconstructed := by simp [Content.before, unmarked]
  exact ⟨accounted.toOrderly.before done plain, by rw [mark, ops, accounted.marked], by rw [mark, ops]; exact accounted.noted⟩

theorem advance (accounted : c.Accounted notes waits) (here : waits) (orderly : c'.Orderly)
    (mark : c'.unreconstructed = c.unreconstructed) : c'.Accounted notes waits := by
  have unmarked : c'.unreconstructed = false := by
    rw [mark, Bool.eq_false_iff]
    exact fun marked => (accounted.marked.mp marked).1 here
  refine ⟨orderly, by simp [unmarked, here], fun marked => ?_⟩
  rw [unmarked] at marked
  cases marked

theorem foldable (notes : List Diagnostic) (todo : List BlockId) :
    Foldable fun i c => c.Accounted notes (i ∈ todo) where
  push value accounted := ⟨Orderly.foldable.push (i := 0) value accounted.toOrderly, accounted.marked, accounted.noted⟩
  unbranched accounted ends :=
    ⟨Orderly.foldable.unbranched (i := 0) accounted.toOrderly ends, accounted.marked, accounted.noted⟩
  join accounted atFront ends :=
    accounted.before (atFront.of_branch ends).1 (atFront.of_branch ends).2 (atFront.toOrderly.of_branch ends).2
  joinTested accounted atFront ends :=
    accounted.before (atFront.of_branch ends).1 (atFront.of_branch ends).2 (atFront.toOrderly.of_branch ends).2
  fuse {_ _ c front _ second} cond accounted atFront ends single := by
    obtain ⟨done, unmarked⟩ := atFront.of_branch ends
    have ends' : c.stmts.getLast? = some (.branch second) := by rw [single]; rfl
    obtain ⟨done', unmarked'⟩ := accounted.of_branch ends'
    have ops : front.ops ++ c.ops = [] := by rw [done, done', List.append_nil]
    have mark : (c.unreconstructed || front.unreconstructed) = false := by rw [unmarked, unmarked', Bool.or_false]
    refine ⟨Orderly.foldable.fuse (i := 0) (j := 0) cond accounted.toOrderly atFront.toOrderly ends single, ?_, ?_⟩
    · change (c.unreconstructed || front.unreconstructed) = true ↔ _ ∧ front.ops ++ c.ops ≠ []
      simp [mark, ops]
    · change (c.unreconstructed || front.unreconstructed) = true → _
      simp [mark]

end Accounted

end Content

namespace Graph

variable {g g' : Graph} {b : BlockId} {notes : List Diagnostic} {todo : List BlockId}

theorem mem_live_map (g : Graph) (i : BlockId) : i ∈ g.live.map Prod.fst ↔ g.Live i := by
  simp only [List.mem_map, Prod.exists, exists_and_right, exists_eq_right, mem_live, Live]

theorem liveCount_lt (kept : ∀ i, g'.Live i → g.Live i) {i : BlockId} (live : g.Live i) (gone : ¬ g'.Live i) :
    g'.liveCount < g.liveCount := by
  have once (g : Graph) : (g.live.map Prod.fst).Nodup := List.pairwise_map.mpr g.live_pairwise
  have fewer : g'.live.map Prod.fst ⊆ (g.live.map Prod.fst).erase i := by
    intro j member
    have live' := (mem_live_map g' j).mp member
    exact ((once g).mem_erase_iff).mpr ⟨fun same => gone (same ▸ live'), (mem_live_map g j).mpr (kept j live')⟩
  have bound := (List.subperm_of_subset (once g') fewer).length_le
  have positive := List.length_pos_of_mem ((mem_live_map g i).mpr live)
  rw [List.length_erase_of_mem ((mem_live_map g i).mpr live)] at bound
  simp only [List.length_map] at bound positive
  unfold liveCount
  omega

/-- The arms are taken out, so fewer blocks are left. -/
theorem Wired.foldConditional_live (wired : g.Wired) (run : g.foldConditional b = .ok (some g')) :
    g'.liveCount < g.liveCount := by
  obtain ⟨head, front, cond, whenTrue, whenFalse, yes, no, diamond, folding⟩ := wired.foldConditional_some run
  have bare (i : BlockId) (live : g'.Live i) : (g.withoutArms head whenTrue whenFalse).Live i := by
    rcases diamond.folded wired folding with ⟨front', _, rfl⟩ | ⟨stale, rfl⟩
    · exact ((joined_live b head front' i).mp ((pushed_live b _ i).mp live)).1
    · rw [without_live, withEdge_live_iff, pushed_live] at live
      exact live
  refine liveCount_lt (fun i live => ((withoutArms_live i).mp (bare i live)).1) (diamond.yes.live wired).1 fun live => ?_
  exact ((withoutArms_live whenTrue).mp (bare whenTrue live)).2.1 rfl

theorem Wired.fuseBranches_live (wired : g.Wired) (run : g.fuseBranches b = .ok (some g')) :
    g'.liveCount < g.liveCount := by
  obtain ⟨pred, front, block, first, second, cond, front', fusion, _, rfl⟩ := wired.fuseBranches_some run
  obtain ⟨_, _, branches, _⟩ := fusion.front
  refine liveCount_lt (fun i live => ?_) (branches.live wired) fun live => ((joined_live b pred front' pred).mp live).2 rfl
  exact (withFused_live i).mp ((joined_live b pred front' i).mp live).1

/-- What is left of every block in use is accounted for; those in `todo` wait for their turn. -/
def Accounted (notes : List Diagnostic) (todo : List BlockId) (g : Graph) : Prop :=
  ∀ (i : BlockId) (c : Content), g.Live i → g.contentOf i = some c → c.Accounted notes (i ∈ todo)

namespace Accounted

variable (accounted : g.Accounted notes todo)

include accounted

theorem foldConditional (wired : g.Wired) (run : g.foldConditional b = .ok (some g')) : g'.Accounted notes todo :=
  Everywhere.foldConditional (Content.Accounted.foldable notes todo) accounted wired run

theorem fuseBranches (wired : g.Wired) (run : g.fuseBranches b = .ok (some g')) : g'.Accounted notes todo :=
  Everywhere.fuseBranches (Content.Accounted.foldable notes todo) accounted wired run

theorem foldCachedClass (wired : g.Wired) (run : g.foldCachedClass b = .ok (some g')) :
    g'.Accounted notes todo ∧ ¬ g'.Live b := by
  refine ⟨Everywhere.foldCachedClass (Content.Accounted.foldable notes todo) accounted wired run, fun live => ?_⟩
  obtain ⟨head, follow, front, name, t, front', _, _, rfl⟩ := wired.foldCachedClass_some run
  exact ((withoutFill_live b).mp ((joined_live follow head front' b).mp ((pushed_live follow _ b).mp live)).1).2 rfl

end Accounted

end Graph

namespace Draft

open Unstack.Graph

variable {n : Nat} {plan : Plan} {b : BlockId} {d d' : Draft} {todo rest : List BlockId}

def Accounted (todo : List BlockId) (d : Draft) : Prop := d.graph.Accounted d.notes todo

/-- Work on a block that waits keeps the account of all. -/
theorem Accounted.turn (accounted : d.Accounted todo) (waits : b ∈ todo) (turn : Turn plan b d d')
    (sturdy : Sturdy n d.graph) : d'.Accounted todo := by
  have orderly := turn.orderly sturdy fun i c live found => (accounted i c live found).toOrderly
  have isLocal := turn.isLocal sturdy
  intro i c live found
  by_cases here : b = i
  · subst here
    have mark := isLocal.mark
    rw [found, Option.map_some] at mark
    obtain ⟨old, atOld, same⟩ := Option.map_eq_some_iff.mp mark.symm
    have before := (accounted b old (isLocal.live b live) atOld).mono isLocal.notes
    exact before.advance waits (orderly b c live found) same.symm
  · rw [isLocal.others i here] at found
    exact (accounted i c (isLocal.live i live) found).mono isLocal.notes

theorem Accounted.turns (turns : Relation.ReflTransGen (Turn plan b) d d') (sturdy : Sturdy n d.graph)
    (accounted : d.Accounted todo) (waits : b ∈ todo) : Sturdy n d'.graph ∧ d'.Accounted todo := by
  induction turns with
  | refl => exact ⟨sturdy, accounted⟩
  | tail _ turn ih => exact ⟨turn.sturdy ih.1, ih.2.turn waits turn ih.1⟩

/-- Folds come to an end before the limit, since each of them takes a block out. -/
theorem exhaust_ends {fold : Graph → Checked (Option Graph)} {holds : Draft → Prop}
    (keeps : ∀ (d : Draft) (g' : Graph), holds d → fold d.graph = .ok (some g') →
      holds { d with graph := g' } ∧ g'.liveCount < d.graph.liveCount)
    (pass : Pass) (limit left : Nat) (initial : holds d) (enough : d.graph.liveCount ≤ left) :
    Ensures (exhaust pass limit fold left) d fun outcome d' => ∃ u, outcome = .ok u ∧ holds d' := by
  have once {d : Draft} (initial : holds d) : Ensures (applyOnce fold) d fun outcome d' =>
      ∃ applied, outcome = .ok applied ∧ holds d' ∧ (applied = true → d'.graph.liveCount < d.graph.liveCount) := by
    refine .get_bind (.lift_bind fun folded run => ?_)
    cases folded with
    | none => exact .pure ⟨false, rfl, initial, nofun⟩
    | some g =>
      have kept := keeps d g initial run
      have set : Ensures (setGraph g) d fun outcome d' =>
          ∃ u, outcome = .ok u ∧ holds d' ∧ d'.graph.liveCount < d.graph.liveCount := .modify ⟨(), rfl, kept⟩
      exact set.bind_ok fun _ d' kept => .pure ⟨true, rfl, kept.1, fun _ => kept.2⟩
  induction left generalizing d with
  | zero =>
    refine (once initial).bind_ok fun applied d' ⟨kept, fewer⟩ => ?_
    cases applied with
    | true => exact absurd (fewer rfl) (by omega)
    | false => exact .pure ⟨(), rfl, kept⟩
  | succ left ih =>
    refine (once initial).bind_ok fun applied d' ⟨kept, fewer⟩ => ?_
    cases applied with
    | true =>
      have lower := fewer rfl
      exact ih kept (by omega)
    | false => exact .pure ⟨(), rfl, kept⟩

/-- The graph is in order, and what is left of its blocks is accounted for. -/
structure Orderly (n : Nat) (todo : List BlockId) (d : Draft) : Prop where
  sturdy : Sturdy n d.graph
  accounted : d.Accounted todo

theorem foldConditional_ends (orderly : Orderly n todo d) :
    Ensures (foldAll .conditional plan Graph.foldConditional b) d fun outcome d' =>
      ∃ u, outcome = .ok u ∧ Orderly n todo d' := by
  refine .get_bind (exhaust_ends (fun d g' kept run => ?_) _ _ _ orderly (Nat.le_max_right _ _))
  have step : Step plan d { d with graph := g' } := .conditional run
  exact ⟨⟨step.sturdy kept.sturdy, Graph.Accounted.foldConditional kept.accounted kept.sturdy.wired run⟩,
    kept.sturdy.wired.foldConditional_live run⟩

theorem fuseBranches_ends (orderly : Orderly n todo d) :
    Ensures (foldAll .shortCircuit plan Graph.fuseBranches b) d fun outcome d' =>
      ∃ u, outcome = .ok u ∧ Orderly n todo d' := by
  refine .get_bind (exhaust_ends (fun d g' kept run => ?_) _ _ _ orderly (Nat.le_max_right _ _))
  have step : Step plan d { d with graph := g' } := .fuse run
  exact ⟨⟨step.sturdy kept.sturdy, Graph.Accounted.fuseBranches kept.accounted kept.sturdy.wired run⟩,
    kept.sturdy.wired.fuseBranches_live run⟩

/-- A block that is no longer in use, or of which nothing is left, has had its turn. -/
theorem Accounted.pass (accounted : d.Accounted (b :: rest))
    (finished : ∀ c, d.graph.Live b → d.graph.contentOf b = some c → c.ops = []) : d.Accounted rest := by
  intro i c live found
  have before := accounted i c live found
  by_cases here : i = b
  · subst here
    have unmarked : c.unreconstructed = false := Bool.eq_false_iff.mpr fun marked =>
      (before.marked.mp marked).1 (.head _)
    exact ⟨before.toOrderly, by simp [unmarked, finished c live found], before.noted⟩
  · exact before.congr (by simp [here])

/-- A block whose operations cannot all be executed is marked, and a message says so. -/
theorem Accounted.giveUp {block : Block} (accounted : d.Accounted (b :: rest)) (once : b ∉ rest)
    (found : d.graph.blocks[b]? = some block) (left : block.ops ≠ []) :
    Accounted rest ⟨d.graph.altered b Block.givenUp,
      d.notes ++ [.error (block.ops.head?.map Operation.pc) "stack underflow"]⟩ := by
  intro i c live found'
  have live' := (altered_live Block.keepsWiring_givenUp i).mp live
  rw [contentOf, altered_block] at found'
  by_cases here : b = i
  · subst here
    rw [if_pos rfl, found] at found'
    cases Option.some.inj found'
    have before := accounted b block.content live' (contentOf_eq found)
    refine ⟨⟨before.inner, before.stmts⟩, ?_, fun _ => List.mem_append_right _ (.head _)⟩
    exact ⟨fun _ => ⟨once, left⟩, fun _ => rfl⟩
  · rw [if_neg here] at found'
    have before := accounted i c live' found'
    exact (before.mono (List.subset_append_left _ _)).congr (by simp [Ne.symm here])

/-- The work on a block comes to an end, and what is left of the block is accounted for. -/
theorem recover_ends (orderly : Orderly n (b :: rest) d) (once : b ∉ rest) :
    Ensures (recover plan b) d fun outcome d' => ∃ u, outcome = .ok u ∧ Orderly n rest d' := by
  refine .get_bind (.lift_bind fun block found => ?_)
  split
  · rename_i gone
    refine .pure ⟨(), rfl, orderly.sturdy, orderly.accounted.pass fun c live _ => ?_⟩
    obtain ⟨_, found', used⟩ := live
    cases (block_eq_ok.mp found).some_unique found'
    rw [used] at gone
    cases gone
  refine (foldConditional_ends orderly).bind_ok fun _ d₁ orderly₁ => .get_bind (.lift_bind fun converted run => ?_)
  obtain ⟨complete, d₂⟩ := converted
  obtain ⟨turns, block₂, found₂, done⟩ := convert_turns orderly₁.sturdy run
  obtain ⟨sturdy₂, accounted₂⟩ := Accounted.turns turns orderly₁.sturdy orderly₁.accounted (.head _)
  refine .set_bind ?_
  cases complete with
  | true =>
    refine fuseBranches_ends ⟨sturdy₂, accounted₂.pass fun c _ found => ?_⟩
    rw [contentOf_eq found₂] at found
    cases Option.some.inj found
    exact done.mp rfl
  | false =>
    refine .lift_bind fun folded ran => ?_
    cases folded with
    | some g =>
      have step : Step plan d₂ { d₂ with graph := g } := .cached ran
      obtain ⟨accounted₃, gone⟩ := Graph.Accounted.foldCachedClass accounted₂ sturdy₂.wired ran
      refine .modify ⟨(), rfl, step.sturdy sturdy₂, ?_⟩
      exact Accounted.pass (d := { d₂ with graph := g }) accounted₃ fun c live _ => absurd live gone
    | none =>
      have left : block₂.ops ≠ [] := fun none => nomatch done.mpr none
      have marks : Ensures (giveUp b) d₂ fun outcome d' => ∃ u, outcome = .ok u ∧ Orderly n rest d' := by
        refine .get_bind (.lift_bind fun block found => .lift_bind fun g changed => ?_)
        obtain ⟨_, rfl⟩ := modifyBlock_eq_ok.mp changed
        cases (block_eq_ok.mp found).some_unique found₂
        exact .modify ⟨(), rfl, sturdy₂.altered Block.keepsWiring_givenUp, accounted₂.giveUp once found₂ left⟩
      exact marks.bind_ok fun _ d₃ orderly₃ => fuseBranches_ends orderly₃

end Draft

/-- The reconstruction succeeds, and what is left of every block is accounted for. -/
theorem Graph.reconstruct_ends {n : Nat} {g : Graph} {plan : Plan} {notes : List Diagnostic}
    {outcome : Except AnalysisError Unit} {d : Draft} (orderly : Draft.Orderly n g.reversePostorder ⟨g, notes⟩)
    (once : g.postorder.Nodup) (run : g.reconstruct plan notes = .ok (outcome, d)) :
    outcome = .ok () ∧ d.Accounted [] := by
  have work : Ensures (do
      g.reversePostorder.forM (Draft.recover plan)
      Draft.setGraph (← (← Draft.getGraph).renumber)) ⟨g, notes⟩ fun outcome d =>
        outcome = .ok () ∧ d.Accounted [] := by
    have each (b : BlockId) (rest : List BlockId) (d : Draft) (kept : (b :: rest).Nodup ∧ Draft.Orderly n (b :: rest) d) :
        Ensures (Draft.recover plan b) d fun outcome d' =>
          ∃ u, outcome = .ok u ∧ rest.Nodup ∧ Draft.Orderly n rest d' := by
      obtain ⟨fresh, tail⟩ := List.nodup_cons.mp kept.1
      intro outcome d' ran
      obtain ⟨u, given, orderly'⟩ := Draft.recover_ends kept.2 fresh outcome d' ran
      exact ⟨u, given, tail, orderly'⟩
    have all := Ensures.forM_ok (fun todo d => todo.Nodup ∧ Draft.Orderly n todo d)
      ⟨List.nodup_reverse.mpr once, orderly⟩ each
    refine all.bind_ok fun _ d ⟨_, orderly'⟩ => .get_bind (.lift_bind fun g' renumbering => .modify ⟨rfl, ?_⟩)
    have numbered := (orderly'.sturdy.wired.searched renumbering).1
    exact Graph.Everywhere.congr orderly'.accounted (fun i => (numbered.live_iff i).mp) numbered.contentOf
  exact work outcome d run

/-- At the start every block in use waits for its turn. -/
theorem Graph.Prepares.orderly {m : MethodInput} {built last ready : Graph} {dead : List BlockId}
    (prepares : Graph.Prepares built last ready dead) (run : (Graph.ofMethod m).run = .ok (.ok built)) :
    Draft.Orderly ready.size ready.reversePostorder ⟨ready, []⟩ := by
  have ofMethod := (Graph.ofMethod_yields m).of_run run
  refine ⟨prepares.sturdy, fun i c live found => ?_⟩
  have waits : i ∈ ready.reversePostorder :=
    List.mem_reverse.mpr ((prepares.searched.listed i).mpr (prepares.reached live))
  obtain ⟨stmts, _, unmarked⟩ := prepares.raw run found
  obtain ⟨block, atBlock, _, rfl⟩ := prepares.content ofMethod found
  refine ⟨⟨fun o' member => ?_, .inl fun stmt member => ?_⟩, ?_, fun marked => ?_⟩
  · rw [← List.map_dropLast] at member
    obtain ⟨o, inner, rfl⟩ := List.mem_map.mp member
    have laid := prepares.laid ofMethod
    have flows := laid.flows_inside atBlock inner
    have listed := laid.op_listed atBlock (List.mem_of_mem_dropLast inner)
    cases isInstr : (last.counted o).instr with
    | jumpCompare t relation target | jumpZero t relation target =>
      rw [Graph.instr_of_counted listed isInstr (by simp) (by simp)] at flows
      cases flows
    | _ => rfl
  · rw [stmts] at member
    cases member
  · rw [unmarked]
    simp [waits]
  · rw [unmarked] at marked
    cases marked

/-- Nothing is left out silently: where a method can be analysed, a block in use has operations left exactly if it
is marked, and then a message names the first of them. Without an error all operations are gone. -/
theorem MethodInput.decompile_complete {input : MethodInput} {plan : Plan} {g g' : Graph}
    (built : (Graph.ofMethod input).run = .ok (.ok g)) (solved : g.solve plan.options = .ok (.ok (), g')) :
    ∃ d last, input.decompile plan = .ok d ∧ d.graph = some last ∧
      (∀ b block, (b, block) ∈ last.live → (block.ops ≠ [] ↔ block.unreconstructed = true) ∧
        ∀ o rest, block.ops = o :: rest → .error (some o.pc) "stack underflow" ∈ d.notes) ∧
      (d.failed = false → ∀ b block, (b, block) ∈ last.live → block.ops = []) := by
  have ofMethod := (Graph.ofMethod_yields input).of_run built
  obtain ⟨draft, analysed⟩ := ofMethod.analyse_total (ofMethod.fits solved) plan
  have run := decompile_eq built analysed
  have accounted : draft.Accounted [] := by
    rcases ofMethod.analyse_eq_ok analysed with ⟨_, e, failed⟩ | ⟨last, ready, dead, outcome, d, prepares, rebuilt, ended⟩
    · cases solved.symm.trans failed
    · obtain ⟨rfl, accounted⟩ := Graph.reconstruct_ends (prepares.orderly built) prepares.searched.once rebuilt
      rcases ended with ⟨_, failed, _⟩ | ⟨_, regions, notes, rfl⟩
      · cases failed
      · exact fun i c live found => (accounted i c live found).mono (List.subset_append_left _ _)
  have each (b : BlockId) (block : Block) (member : (b, block) ∈ draft.graph.live) :
      block.content.Accounted draft.notes (b ∈ []) := by
    obtain ⟨found, used⟩ := Graph.mem_live.mp member
    exact accounted b block.content ⟨block, found, used⟩ (Graph.contentOf_eq found)
  have noted (b : BlockId) (block : Block) (member : (b, block) ∈ draft.graph.live) (o : Operation)
      (rest : List Operation) (ops : block.ops = o :: rest) : .error (some o.pc) "stack underflow" ∈ draft.notes := by
    have marked := (each b block member).marked.mpr ⟨List.not_mem_nil, by simp [Block.content, ops]⟩
    have note := (each b block member).noted marked
    simpa [Block.content, ops] using note
  refine ⟨_, _, run, rfl, fun b block member => ⟨?_, noted b block member⟩, fun clean b block member => ?_⟩
  · have marked := (each b block member).marked
    exact ⟨fun left => marked.mpr ⟨List.not_mem_nil, left⟩, fun mark => (marked.mp mark).2⟩
  · cases ops : block.ops with
    | nil => rfl
    | cons o rest =>
      have failed : draft.notes.any Diagnostic.isError := List.any_eq_true.mpr ⟨_, noted b block member o rest ops, rfl⟩
      exact absurd failed (Bool.eq_false_iff.mp clean)

/-- A value is pushed in one block and dropped in the next one. -/
def MethodInput.handedOver : MethodInput where
  info := MethodInfo.plain "handedOver" 0 1
  ops := [⟨0, 0, -1, .push .int (.int 1)⟩, ⟨0, 0, -1, .goto 2⟩, ⟨0, 0, -1, .pop .pop⟩, ⟨0, 0, -1, .leave .void⟩]
  exceptions := []

/-- The second block finds no value on its own stack and is marked. -/
theorem MethodInput.decompile_complete_handedOver : ∃ d last b block o rest,
    handedOver.decompile ⟨.none, {}⟩ = .ok d ∧ d.graph = some last ∧ (b, block) ∈ last.live ∧ block.ops = o :: rest ∧
      block.unreconstructed = true ∧ .error (some o.pc) "stack underflow" ∈ d.notes := by
  have left : (handedOver.decompile ⟨.none, {}⟩).toOption.any fun d =>
      d.graph.any fun g => g.live.any fun entry => !entry.2.ops.isEmpty := by decide +kernel
  obtain ⟨g, g', built, solved⟩ := Graph.solves_of_isSome (show (Graph.solved? handedOver {}).isSome by decide +kernel)
  obtain ⟨d, last, run, atGraph, each, _⟩ := @decompile_complete handedOver ⟨.none, {}⟩ g g' built solved
  rw [run] at left
  have left : d.graph.any fun g => g.live.any fun entry => !entry.2.ops.isEmpty := left
  rw [atGraph, Option.any_some, List.any_eq_true] at left
  obtain ⟨⟨b, block⟩, member, nonempty⟩ := left
  obtain ⟨o, rest, ops⟩ := List.exists_cons_of_ne_nil (by simpa using nonempty : block.ops ≠ [])
  obtain ⟨marked, noted⟩ := each b block member
  exact ⟨d, last, b, block, o, rest, run, atGraph, member, ops, marked.mp (by simp [ops]), noted o rest ops⟩

end Unstack
