import Mathlib.Data.List.ReduceOption
import Unstack.Proofs.Graph.Content
import Unstack.Recovery.Fold

namespace Unstack

namespace Block

def unbranched (block : Block) : Block := { block with stmts := block.stmts.dropLast }

def untested (block : Block) : Block := { block with stack := block.stack.tail, stmts := block.stmts.dropLast }

def recond (cond : Expr) (block : Block) : Block := { block with stmts := Graph.changeCond cond block.stmts }

def beheaded (block : Block) : Block := { block with stmts := block.stmts.drop 1 }

theorem keepsWiring_unbranched : Graph.KeepsWiring unbranched := fun _ => ⟨rfl, rfl, rfl⟩

theorem keepsWiring_untested : Graph.KeepsWiring untested := fun _ => ⟨rfl, rfl, rfl⟩

theorem keepsWiring_recond (cond : Expr) : Graph.KeepsWiring (recond cond) := fun _ => ⟨rfl, rfl, rfl⟩

theorem keepsWiring_beheaded : Graph.KeepsWiring beheaded := fun _ => ⟨rfl, rfl, rfl⟩

end Block

namespace Graph

variable {n : Nat} {g g' : Graph} {b whenTrue whenFalse arm : BlockId} {cond : Expr} {preds : List BlockId}
  {kind : EdgeKind}

theorem lt_of_block {block : Block} (run : g.block b = .ok block) : b < g.blocks.size :=
  (block_eq_ok.mp run).lt_size

theorem lt_of_preds (run : g.preds b = .ok preds) : b < g.blocks.size := by
  obtain ⟨_, entering, _⟩ := bind_eq_ok.mp run
  obtain ⟨_, found, _⟩ := bind_eq_ok.mp entering
  exact lt_of_block found

theorem Wired.preds_eq_ok (wired : g.Wired) (run : g.preds b = .ok preds) :
    preds.length = (g.insOf b).length ∧ ∀ p, p ∈ preds ↔ ∃ e, g.Joins e p b := by
  obtain ⟨_, run', facts⟩ := wired.preds_total (lt_of_preds run)
  exact run.ok_unique run' ▸ facts

/-- A block with one predecessor is entered by one edge. -/
theorem Wired.only_entry (wired : g.Wired) {pred : BlockId} (run : g.preds b = .ok [pred]) :
    ∃ e, g.Joins e pred b ∧ ∀ e' source, g.Joins e' source b → e' = e := by
  obtain ⟨count, members⟩ := wired.preds_eq_ok run
  obtain ⟨e, joined⟩ := (members pred).mp (.head _)
  obtain ⟨only, single⟩ := List.length_eq_one_iff.mp count.symm
  have atEdge := (wired.mem_ins b e).mpr ⟨pred, joined⟩
  refine ⟨e, joined, fun e' source joined' => ?_⟩
  have atEdge' := (wired.mem_ins b e').mpr ⟨source, joined'⟩
  rw [single, List.mem_singleton] at atEdge atEdge'
  rw [atEdge, atEdge']

theorem Wired.targetOf_eq_ok (wired : g.Wired) {target : BlockId} (run : g.targetOf kind b = .ok (some target)) :
    ∃ e edge, g.edges[e]? = some edge ∧ edge.kind = kind ∧ g.Joins e b target := by
  obtain ⟨_, leaving, _⟩ := bind_eq_ok.mp run
  obtain ⟨_, found, _⟩ := bind_eq_ok.mp leaving
  exact (wired.targetOf_total (lt_of_block found) kind).of_run run

/-- A condition is found exactly at a block that ends in a branch and has a successor for either outcome. -/
theorem condition?_eq_ok : g.condition? b = .ok (some (cond, whenTrue, whenFalse)) ↔
      (∃ block, g.blocks[b]? = some block ∧ block.stmts.getLast? = some (.branch cond)) ∧
        g.trueSucc b = .ok (some whenTrue) ∧ g.falseSucc b = .ok (some whenFalse) := by
  constructor
  · intro run
    obtain ⟨block, found, run⟩ := bind_eq_ok.mp run
    obtain ⟨yes, atTrue, run⟩ := bind_eq_ok.mp run
    obtain ⟨no, atFalse, run⟩ := bind_eq_ok.mp run
    split at run
    · rename_i ends _
      cases run
      exact ⟨⟨block, block_eq_ok.mp found, ends⟩, atTrue, atFalse⟩
    · cases run
  · rintro ⟨⟨block, found, ends⟩, atTrue, atFalse⟩
    simp only [condition?, block_eq_ok.mpr found, atTrue, atFalse, ok_bind, Block.lastStmt?, ends]
    rfl

/-- The block ends in a branch on `cond` and has an edge for each of its values. -/
structure Branches (g : Graph) (b : BlockId) (block : Block) (cond : Expr) (whenTrue whenFalse : BlockId) : Prop where
  read : g.condition? b = .ok (some (cond, whenTrue, whenFalse))
  found : g.blocks[b]? = some block
  ends : block.stmts.getLast? = some (.branch cond)
  yes : ∃ e edge, g.edges[e]? = some edge ∧ edge.kind = .whenTrue ∧ g.Joins e b whenTrue
  no : ∃ e edge, g.edges[e]? = some edge ∧ edge.kind = .whenFalse ∧ g.Joins e b whenFalse

theorem Branches.live {block : Block} (wired : g.Wired)
    (branches : g.Branches b block cond whenTrue whenFalse) : g.Live b := by
  obtain ⟨e, _, _, _, joins⟩ := branches.yes
  exact (wired.ends_live e _ _ joins).1

/-- What is read as a condition is a branch with an edge for each of its outcomes. -/
theorem Wired.branches (wired : g.Wired) (run : g.condition? b = .ok (some (cond, whenTrue, whenFalse))) :
    ∃ block, g.Branches b block cond whenTrue whenFalse := by
  obtain ⟨⟨block, found, ends⟩, atTrue, atFalse⟩ := condition?_eq_ok.mp run
  exact ⟨block, run, found, ends, wired.targetOf_eq_ok atTrue, wired.targetOf_eq_ok atFalse⟩

theorem Wired.condition?_total (wired : g.Wired) (inside : b < g.blocks.size) : ∃ r, g.condition? b = .ok r := by
  obtain ⟨yes, atTrue, _⟩ := wired.targetOf_total inside .whenTrue
  obtain ⟨no, atFalse, _⟩ := wired.targetOf_total inside .whenFalse
  simp only [condition?, block_eq_ok.mpr (Array.getElem?_eq_getElem inside), ok_bind, trueSucc, atTrue, falseSucc, atFalse]
  split
  · exact ⟨_, rfl⟩
  · exact ⟨_, rfl⟩

/-- A block that does nothing but leave one value for `b`. One edge enters it. -/
structure Arm (g : Graph) (b arm : BlockId) (value : StackValue) : Prop where
  holds : ∃ block, g.blocks[arm]? = some block ∧ block.stack = [value] ∧ block.stmts = [] ∧ block.ops = []
  once (e e' : EdgeId) (source source' : BlockId) : g.Joins e source arm → g.Joins e' source' arm → e = e'
  enters : ∃ e, g.Joins e arm b
  onward : ∃ next, g.succ arm = .ok (some next)

/-- A branch at the end of `head` whose two arms meet in `b`. -/
structure Diamond (g : Graph) (b head : BlockId) (front : Block) (cond : Expr) (whenTrue whenFalse : BlockId)
    (yes no : StackValue) : Prop where
  branches : g.Branches head front cond whenTrue whenFalse
  yes : g.Arm b whenTrue yes
  no : g.Arm b whenFalse no
  distinct : whenTrue ≠ whenFalse
  notTrue : b ≠ whenTrue
  notFalse : b ≠ whenFalse

/-- An arm has one predecessor and holds nothing but the value that it leaves. -/
theorem armHead?_some {head : BlockId} (run : g.armHead? arm = .ok (some head)) :
    g.preds arm = .ok [head] ∧ (∃ next, g.succ arm = .ok (some next)) ∧
      ∃ block value, g.blocks[arm]? = some block ∧ block.stack = [value] ∧ block.stmts = [] ∧ block.ops = [] := by
  obtain ⟨block, found, run⟩ := bind_eq_ok.mp run
  obtain ⟨next, leaving, run⟩ := bind_eq_ok.mp run
  obtain ⟨preds, entering, run⟩ := bind_eq_ok.mp run
  split at run
  · rename_i head'
    have chosen := Except.ok.inj run
    split at chosen
    · rename_i shaped
      cases chosen
      simp only [Bool.and_eq_true, decide_eq_true_eq, List.isEmpty_iff] at shaped
      obtain ⟨value, stack⟩ := List.length_eq_one_iff.mp shaped.1.1
      exact ⟨entering, ⟨_, leaving⟩, block, value, block_eq_ok.mp found, stack, shaped.1.2, shaped.2⟩
    · cases chosen
  · cases run

theorem Wired.armHead?_total (wired : g.Wired) (inside : b < g.blocks.size) : ∃ r, g.armHead? b = .ok r := by
  obtain ⟨next, atNext, _⟩ := wired.targetOf_total inside .sequence
  obtain ⟨preds, entering, _⟩ := wired.preds_total inside
  simp only [armHead?, block_eq_ok.mpr (Array.getElem?_eq_getElem inside), ok_bind, succ, atNext, entering]
  split
  · exact ⟨_, rfl⟩
  · exact ⟨_, rfl⟩

/-- The lowest of several blocks is one of them. -/
theorem lowest_total {heads : List BlockId} (inside : ∀ c ∈ heads, c < g.blocks.size) :
    Gives (heads.foldlM g.lowest none) (· ∈ heads) := by
  let holds (rest : List BlockId) (best : Option BlockId) : Prop :=
    (∀ c ∈ rest, c ∈ heads) ∧ ∀ c, best = some c → c ∈ heads
  obtain ⟨r, run, kept⟩ := foldlM_total holds g.lowest heads none ⟨fun _ => id, nofun⟩ fun c rest best before => by
    have here := before.1 c (.head _)
    have later (d : BlockId) (member : d ∈ rest) := before.1 d (.tail c member)
    cases best with
    | none => exact ⟨some c, rfl, later, fun d same => Option.some.inj same ▸ here⟩
    | some other =>
      have there := before.2 other rfl
      simp only [lowest, block_eq_ok.mpr (Array.getElem?_eq_getElem (inside _ here)),
        block_eq_ok.mpr (Array.getElem?_eq_getElem (inside _ there)), ok_bind]
      refine ⟨_, rfl, later, fun d same => ?_⟩
      split at same <;> cases same <;> assumption
  exact ⟨r, run, kept.2⟩

/-- The graph without the branch at the end of a block and without its two arms. -/
def withoutArms (g : Graph) (head whenTrue whenFalse : BlockId) : Graph :=
  ((g.altered head Block.unbranched).withoutBlock whenTrue).withoutBlock whenFalse

section WithoutArms

variable {head whenTrue whenFalse : BlockId}

theorem Wired.withoutArms (wired : g.Wired) (head whenTrue whenFalse : BlockId) :
    (g.withoutArms head whenTrue whenFalse).Wired :=
  ((altered_wired wired head Block.keepsWiring_unbranched).withoutBlock whenTrue).withoutBlock whenFalse

/-- Besides the arms, every block stays in use. -/
theorem withoutArms_live (i : BlockId) :
    (g.withoutArms head whenTrue whenFalse).Live i ↔ g.Live i ∧ i ≠ whenTrue ∧ i ≠ whenFalse := by
  rw [Graph.withoutArms, withoutBlock_live, withoutBlock_live, altered_live Block.keepsWiring_unbranched, and_assoc]

theorem contentOf_withoutArms (i : BlockId) :
    (g.withoutArms head whenTrue whenFalse).contentOf i =
      if head = i then (g.contentOf i).map Content.unbranched else g.contentOf i := by
  rw [Graph.withoutArms, contentOf_withoutBlock, contentOf_withoutBlock]
  exact contentOf_altered (fun _ => rfl) i

end WithoutArms

section Diamond

variable {head : BlockId} {front : Block} {yes no value : StackValue}

theorem Arm.live (wired : g.Wired) (atArm : g.Arm b arm value) : g.Live arm ∧ g.Live b := by
  obtain ⟨e, joins⟩ := atArm.enters
  exact wired.ends_live e _ _ joins

/-- A head ends in a branch and an arm has no statements, so no block is both. -/
theorem Arm.ne_of_branches (atArm : g.Arm b arm value) (branches : g.Branches head front cond whenTrue whenFalse) :
    head ≠ arm := by
  rintro rfl
  obtain ⟨block, found, _, empty, _⟩ := atArm.holds
  cases branches.found.some_unique found
  have ends := branches.ends
  rw [empty] at ends
  cases ends

/-- The block where the arms meet and the head stay in use. -/
theorem Diamond.stay (wired : g.Wired) (diamond : g.Diamond b head front cond whenTrue whenFalse yes no) :
    (g.withoutArms head whenTrue whenFalse).Live b ∧ (g.withoutArms head whenTrue whenFalse).Live head := by
  have apart := diamond.yes.ne_of_branches diamond.branches
  have apart' := diamond.no.ne_of_branches diamond.branches
  exact ⟨(withoutArms_live b).mpr ⟨(diamond.yes.live wired).2, diamond.notTrue, diamond.notFalse⟩,
    (withoutArms_live head).mpr ⟨diamond.branches.live wired, apart, apart'⟩⟩

/-- Without its last arms `b` has nothing in front but the head, which becomes a part of it; otherwise the value
is left to the head, which goes on with `b`. -/
def FoldsArms (g : Graph) (b head whenTrue whenFalse : BlockId) (value : Expr) (g' : Graph) : Prop :=
  ((g.withoutArms head whenTrue whenFalse).insOf b = [] ∧
    ∃ front', (g.withoutArms head whenTrue whenFalse).blocks[head]? = some front' ∧
      g' = ((g.withoutArms head whenTrue whenFalse).joined b head front').pushed b value) ∨
  ∃ e, ((g.withoutArms head whenTrue whenFalse).pushed head value).setSucc head b = .ok (e, g')

/-- The arms of a branch can always be folded. -/
theorem Diamond.foldArms_total (wired : g.Wired) (diamond : g.Diamond b head front cond whenTrue whenFalse yes no)
    (value : Expr) :
    ∃ g', g.foldArms b head whenTrue whenFalse value = .ok g' ∧ g.FoldsArms b head whenTrue whenFalse value g' := by
  have bare := wired.withoutArms head whenTrue whenFalse
  have ⟨stays, headStays⟩ := diamond.stay wired
  have wired₁ := altered_wired wired head Block.keepsWiring_unbranched
  have start : g.foldArms b head whenTrue whenFalse value = (do
      if (← (g.withoutArms head whenTrue whenFalse).preds b).isEmpty then
        let g ← (g.withoutArms head whenTrue whenFalse).joinPred b head
        g.pushValue b value
      else
        let g ← (g.withoutArms head whenTrue whenFalse).pushValue head value
        return (← g.setSucc head b).2) := by
    rw [foldArms, modifyBlock_eq_ok.mpr ⟨(diamond.branches.live wired).lt, rfl⟩, ok_bind]
    change ((g.altered head Block.unbranched).removeBlock whenTrue >>= _) = _
    rw [wired₁.removeBlock_eq (by simpa using (diamond.yes.live wired).1.lt), ok_bind,
      (wired₁.withoutBlock whenTrue).removeBlock_eq (by simpa using (diamond.no.live wired).1.lt), ok_bind]
    rfl
  obtain ⟨preds, entering, count, _⟩ := bare.preds_total stays.lt
  rw [start, entering, ok_bind]
  split
  · rename_i last
    have ⟨front', found, _⟩ := headStays
    have none : (g.withoutArms head whenTrue whenFalse).insOf b = [] := by
      rw [← List.length_eq_zero_iff, ← count, List.isEmpty_iff.mp last, List.length_nil]
    refine ⟨_, ?_, .inl ⟨none, front', found, rfl⟩⟩
    rw [(joinPred_eq bare found stays.lt (.inl stays)).1, ok_bind]
    exact pushValue_eq_ok.mpr ⟨by simpa using stays.lt, rfl⟩
  · obtain ⟨stale, setting⟩ := (pushed_wired bare head value).setSucc_eq ((pushed_live ..).mpr headStays)
      ((pushed_live ..).mpr stays)
    refine ⟨_, ?_, .inr ⟨_, setting⟩⟩
    rw [pushValue_eq_ok.mpr ⟨headStays.lt, rfl⟩, ok_bind, setting]
    rfl

theorem Diamond.foldArms_some (wired : g.Wired) (diamond : g.Diamond b head front cond whenTrue whenFalse yes no)
    {value : Expr} (run : g.foldArms b head whenTrue whenFalse value = .ok g') :
    g.FoldsArms b head whenTrue whenFalse value g' := by
  obtain ⟨_, run', shape⟩ := diamond.foldArms_total wired value
  exact run.ok_unique run' ▸ shape

/-- The graph that is left, up to edges of the head that the new one may replace. -/
theorem Diamond.folded (wired : g.Wired) (diamond : g.Diamond b head front cond whenTrue whenFalse yes no)
    {value : Expr} (run : g.foldArms b head whenTrue whenFalse value = .ok g') :
    (∃ front', (g.withoutArms head whenTrue whenFalse).blocks[head]? = some front' ∧
      g' = ((g.withoutArms head whenTrue whenFalse).joined b head front').pushed b value) ∨
    ∃ stale, g' = (((g.withoutArms head whenTrue whenFalse).pushed head value).withEdge head b .sequence).without stale := by
  rcases diamond.foldArms_some wired run with ⟨_, front', atFront, rfl⟩ | ⟨e, setting⟩
  · exact .inl ⟨front', atFront, rfl⟩
  · have ⟨stays, headStays⟩ := diamond.stay wired
    obtain ⟨stale, setting'⟩ := (pushed_wired (wired.withoutArms head whenTrue whenFalse) head value).setSucc_eq
      ((pushed_live ..).mpr headStays) ((pushed_live ..).mpr stays)
    cases setting.ok_unique setting'
    exact .inr ⟨stale, rfl⟩

/-- Folding the arms leaves no name without a meaning, whichever way they are folded. -/
theorem Diamond.sturdy (sturdy : Sturdy n g) (diamond : g.Diamond b head front cond whenTrue whenFalse yes no)
    {value : Expr} (run : g.foldArms b head whenTrue whenFalse value = .ok g') : Sturdy n g' := by
  have ⟨stays, headStays⟩ := diamond.stay sturdy.wired
  have bare : Sturdy n (g.withoutArms head whenTrue whenFalse) :=
    ((sturdy.altered Block.keepsWiring_unbranched).withoutBlock whenTrue).withoutBlock whenFalse
  rcases diamond.folded sturdy.wired run with ⟨front', found, rfl⟩ | ⟨stale, rfl⟩
  · exact (bare.joined found stays).pushed b value
  · exact ((bare.pushed head value).withEdge .sequence ((pushed_live ..).mpr headStays)
      ((pushed_live ..).mpr stays)).without stale

end Diamond

/-- A conditional expression is folded from a branch whose arms meet in the block. -/
def FoldsDiamond (g : Graph) (b : BlockId) (g' : Graph) : Prop :=
  ∃ head front cond whenTrue whenFalse yes no, g.Diamond b head front cond whenTrue whenFalse yes no ∧
    g.foldArms b head whenTrue whenFalse (cond.ofArms yes.expr no.expr) = .ok g'

theorem Wired.foldConditional_gives (wired : g.Wired) (inside : b < g.blocks.size) :
    Gives (g.foldConditional b) (g.FoldsDiamond b) := by
  obtain ⟨preds, entering, -, members⟩ := wired.preds_total inside
  have livePred (p : BlockId) (member : p ∈ preds) : g.Live p := by
    obtain ⟨e, joined⟩ := (members p).mp member
    exact (wired.ends_live e _ _ joined).1
  simp only [foldConditional, entering, ok_bind]
  split
  · exact .nothing _
  rename_i several
  obtain ⟨heads, armed⟩ : ∃ heads, preds.mapM g.armHead? = .ok heads :=
    mapM_total fun p member => wired.armHead?_total (livePred p member).lt
  simp only [armed, ok_bind]
  split
  · exact .nothing _
  rename_i noneMissing
  obtain ⟨results, items⟩ := mapM_mem armed
  have arm (p : BlockId) (member : p ∈ preds) : ∃ head, g.preds p = .ok [head] ∧ ∃ value, g.Arm b p value := by
    obtain ⟨r, listed, found⟩ := results p member
    cases r with
    | none => exact absurd (List.any_eq_true.mpr ⟨none, listed, rfl⟩) noneMissing
    | some head =>
      obtain ⟨entered, onward, block, value, atArm, shape⟩ := armHead?_some found
      obtain ⟨e, _, only⟩ := wired.only_entry entered
      exact ⟨head, entered, value, ⟨block, atArm, shape⟩,
        fun e₁ e₂ s₁ s₂ first second => (only e₁ s₁ first).trans (only e₂ s₂ second).symm, (members p).mp member, onward⟩
  have headInside (c : BlockId) (member : c ∈ heads.reduceOption) : c < g.blocks.size := by
    obtain ⟨p, _, found⟩ := items (some c) (List.reduceOption_mem_iff.mp member)
    obtain ⟨e, joined, _⟩ := wired.only_entry (armHead?_some found).1
    exact (wired.ends_live e _ _ joined).1.lt
  -- an arm has one predecessor and `b` has several
  have notArm : b ∉ preds := by
    intro member
    obtain ⟨head, only, _⟩ := arm b member
    cases entering.ok_unique only
    exact several (by simp)
  obtain ⟨best, chosen, among⟩ := lowest_total headInside
  simp only [chosen, ok_bind]
  cases best with
  | none => exact .nothing _
  | some head =>
    obtain ⟨r, conditional⟩ := wired.condition?_total (headInside head (among head rfl))
    simp only [conditional, ok_bind]
    split
    · exact .nothing _
    rename_i cond whenTrue whenFalse
    split
    · exact .nothing _
    rename_i shaped
    simp only [Bool.or_eq_true, decide_eq_true_eq, Bool.not_eq_true', List.contains_eq_mem, decide_eq_false_iff_not,
      not_or, not_not] at shaped
    obtain ⟨⟨distinct, isTrue⟩, isFalse⟩ := shaped
    obtain ⟨front, branches⟩ := wired.branches conditional
    obtain ⟨_, _, yes, armTrue⟩ := arm whenTrue isTrue
    obtain ⟨_, _, no, armFalse⟩ := arm whenFalse isFalse
    have diamond : g.Diamond b head front cond whenTrue whenFalse yes no :=
      ⟨branches, armTrue, armFalse, distinct, fun same => notArm (same ▸ isTrue), fun same => notArm (same ▸ isFalse)⟩
    obtain ⟨_, foundTrue, stackTrue, _⟩ := armTrue.holds
    obtain ⟨_, foundFalse, stackFalse, _⟩ := armFalse.holds
    obtain ⟨g', folded, _⟩ := diamond.foldArms_total wired (cond.ofArms yes.expr no.expr)
    refine .found ?_ ⟨head, front, cond, whenTrue, whenFalse, yes, no, diamond, folded⟩
    simp only [block_eq_ok.mpr foundTrue, block_eq_ok.mpr foundFalse, ok_bind, Block.top?, stackTrue, stackFalse,
      List.head?_cons, folded]
    rfl

theorem Wired.foldConditional_some (wired : g.Wired) (run : g.foldConditional b = .ok (some g')) :
    g.FoldsDiamond b g' := by
  obtain ⟨_, entering, _⟩ := bind_eq_ok.mp run
  exact (wired.foldConditional_gives (lt_of_preds entering)).of_run run

/-- Folding a conditional expression meets no fault. -/
theorem Sturdy.foldConditional (sturdy : Sturdy n g) (inside : b < n) : Gives (g.foldConditional b) (Sturdy n) := by
  refine (sturdy.wired.foldConditional_gives (sturdy.lt inside)).imp fun g' found => ?_
  obtain ⟨_, _, _, _, _, _, _, diamond, folded⟩ := found
  exact diamond.sturdy sturdy folded

/-- A block that is nothing but a branch, behind a branch that is its only predecessor. -/
structure Fusion (g : Graph) (b pred : BlockId) (front block : Block) (first second cond : Expr) : Prop where
  apart : pred ≠ b
  only : g.preds b = .ok [pred]
  front : ∃ firstTrue firstFalse, g.Branches pred front first firstTrue firstFalse ∧
    ∃ whenTrue whenFalse, g.Branches b block second whenTrue whenFalse ∧
      Expr.fused? first second b whenTrue whenFalse firstTrue firstFalse = some cond
  single : block.stmts = [.branch second] ∧ block.ops = [] ∧ block.stack = []

/-- The graph in which the condition of a branch is changed and the branch behind it is taken away. -/
def withFused (g : Graph) (b pred : BlockId) (cond : Expr) : Graph :=
  (g.altered pred (Block.recond cond)).altered b Block.beheaded

theorem Wired.withFused (wired : g.Wired) (b pred : BlockId) (cond : Expr) : (g.withFused b pred cond).Wired :=
  altered_wired (altered_wired wired pred (Block.keepsWiring_recond cond)) b Block.keepsWiring_beheaded

theorem withFused_live {pred : BlockId} (i : BlockId) : (g.withFused b pred cond).Live i ↔ g.Live i := by
  rw [Graph.withFused, altered_live Block.keepsWiring_beheaded, altered_live (Block.keepsWiring_recond cond)]

/-- A branch is fused with the one in front of it, which becomes a part of its block. -/
def FusesBranches (g : Graph) (b : BlockId) (g' : Graph) : Prop :=
  ∃ pred front block first second cond front', g.Fusion b pred front block first second cond ∧
    (g.withFused b pred cond).blocks[pred]? = some front' ∧ g' = (g.withFused b pred cond).joined b pred front'

/-- Two branches are fused or left alone; there is no fault in between. -/
theorem Wired.fuseBranches_gives (wired : g.Wired) (inside : b < g.blocks.size) :
    Gives (g.fuseBranches b) (g.FusesBranches b) := by
  obtain ⟨preds, entering, -, members⟩ := wired.preds_total inside
  obtain ⟨block, found⟩ : ∃ block, g.blocks[b]? = some block := ⟨_, Array.getElem?_eq_getElem inside⟩
  simp only [fuseBranches, entering, ok_bind]
  split
  · rename_i pred
    obtain ⟨e, joined⟩ := (members pred).mp (.head _)
    have predInside := (wired.ends_live e _ _ joined).1.lt
    simp only [block_eq_ok.mpr found, ok_bind]
    split
    · exact .nothing _
    rename_i shaped
    simp only [Bool.or_eq_true, decide_eq_true_eq, Bool.not_eq_true', ne_eq, not_or, not_not, Bool.not_eq_false,
      List.isEmpty_iff] at shaped
    obtain ⟨⟨⟨single, ops⟩, stack⟩, apart⟩ := shaped
    obtain ⟨r, atPred⟩ := wired.condition?_total predInside
    obtain ⟨r', atBlock⟩ := wired.condition?_total inside
    simp only [atPred, atBlock, ok_bind]
    split
    · rename_i first firstTrue firstFalse second whenTrue whenFalse
      split
      · exact .nothing _
      rename_i cond fused
      obtain ⟨front, branches⟩ := wired.branches atPred
      obtain ⟨block', branches'⟩ := wired.branches atBlock
      cases found.some_unique branches'.found
      obtain ⟨stmt, stmts⟩ := List.length_eq_one_iff.mp single
      have ends := branches'.ends
      rw [stmts] at ends
      cases ends
      have live : (g.withFused b pred cond).Live b := (withFused_live b).mpr (branches'.live wired)
      obtain ⟨front', atFront, _⟩ : (g.withFused b pred cond).Live pred :=
        (withFused_live pred).mpr (branches.live wired)
      refine .found ?_ ⟨pred, front, block, first, second, cond, front',
        ⟨apart, entering, ⟨firstTrue, firstFalse, branches, whenTrue, whenFalse, branches', fused⟩, stmts, ops, stack⟩,
        atFront, rfl⟩
      rw [modifyBlock_eq_ok.mpr ⟨predInside, rfl⟩, ok_bind, modifyBlock_eq_ok.mpr ⟨by simpa using inside, rfl⟩, ok_bind]
      change ((g.withFused b pred cond).joinPred b pred >>= _) = _
      rw [(joinPred_eq (wired.withFused b pred cond) atFront live.lt (.inl live)).1]
      rfl
    · exact .nothing _
  · exact .nothing _

theorem Wired.fuseBranches_some (wired : g.Wired) (run : g.fuseBranches b = .ok (some g')) :
    g.FusesBranches b g' := by
  obtain ⟨_, entering, _⟩ := bind_eq_ok.mp run
  exact (wired.fuseBranches_gives (lt_of_preds entering)).of_run run

/-- Fusing two branches meets no fault. -/
theorem Sturdy.fuseBranches (sturdy : Sturdy n g) (inside : b < n) : Gives (g.fuseBranches b) (Sturdy n) := by
  refine (sturdy.wired.fuseBranches_gives (sturdy.lt inside)).imp fun g' found => ?_
  obtain ⟨pred, _, _, _, _, cond, _, ⟨_, _, ⟨_, _, _, _, _, branches, _⟩, _⟩, atFront, rfl⟩ := found
  have fused : Sturdy n (g.withFused b pred cond) :=
    (sturdy.altered (Block.keepsWiring_recond cond)).altered Block.keepsWiring_beheaded
  exact fused.joined atFront ((withFused_live b).mpr (branches.live sturdy.wired))

/-- A block that fills a cached class literal, behind a branch that skips it, and the block where both meet. -/
structure Cached (g : Graph) (b head follow : BlockId) (front : Block) (name : String) : Prop where
  filled : ∃ block, g.blocks[b]? = some block ∧ cachedName? block.ops = some name
  onward : ∃ e edge, g.edges[e]? = some edge ∧ edge.kind = .sequence ∧ g.Joins e b follow
  only : g.preds b = .ok [head]
  branches : ∃ cond whenTrue whenFalse, g.Branches head front cond whenTrue whenFalse ∧
    (whenFalse = b ∧ whenTrue = follow ∨ whenTrue = b ∧ whenFalse = follow)
  enclosed (e : EdgeId) (source : BlockId) : g.Joins e source follow → source = head ∨ source = b
  apart : follow ≠ b

/-- The graph without the branch at the end of `head`, the value in front of it, and `b`. -/
def withoutFill (g : Graph) (b head : BlockId) : Graph :=
  (g.altered head Block.untested).withoutBlock b

theorem Wired.withoutFill (wired : g.Wired) (b head : BlockId) : (g.withoutFill b head).Wired :=
  (altered_wired wired head Block.keepsWiring_untested).withoutBlock b

theorem withoutFill_live {head : BlockId} (i : BlockId) : (g.withoutFill b head).Live i ↔ g.Live i ∧ i ≠ b := by
  rw [Graph.withoutFill, withoutBlock_live, altered_live Block.keepsWiring_untested]

/-- The block where both ways meet is not the one that is taken out. -/
theorem Cached.follow_live {head follow : BlockId} {front : Block} {name : String} (wired : g.Wired)
    (cached : g.Cached b head follow front name) : (g.withoutFill b head).Live follow := by
  obtain ⟨e, _, _, _, onward⟩ := cached.onward
  exact (withoutFill_live follow).mpr ⟨(wired.ends_live e _ _ onward).2, cached.apart⟩

/-- A class literal is folded: its test becomes a part of the block that follows, on whose stack it is pushed. -/
def FoldsCached (g : Graph) (b : BlockId) (g' : Graph) : Prop :=
  ∃ head follow front name t front', g.Cached b head follow front name ∧
    (g.withoutFill b head).blocks[head]? = some front' ∧
    g' = ((g.withoutFill b head).joined follow head front').pushed follow (.classOf t)

/-- A cached class literal is folded or left alone; there is no fault in between. -/
theorem Wired.foldCachedClass_gives (wired : g.Wired) (inside : b < g.blocks.size) :
    Gives (g.foldCachedClass b) (g.FoldsCached b) := by
  obtain ⟨block, found⟩ : ∃ block, g.blocks[b]? = some block := ⟨_, Array.getElem?_eq_getElem inside⟩
  obtain ⟨next, leaving, nextJoins⟩ := wired.targetOf_total inside .sequence
  obtain ⟨preds, entering, -, members⟩ := wired.preds_total inside
  simp only [foldCachedClass, block_eq_ok.mpr found, succ, leaving, entering, ok_bind]
  split
  · rename_i name follow head named
    obtain ⟨e, edge, atEdge, kind, onward⟩ := nextJoins follow rfl
    obtain ⟨e', joined⟩ := (members head).mp (.head _)
    have headInside := (wired.ends_live e' _ _ joined).1.lt
    obtain ⟨r, conditional⟩ := wired.condition?_total headInside
    simp only [conditional, ok_bind]
    split
    · rename_i cond whenTrue whenFalse t known
      obtain ⟨front, branches⟩ := wired.branches conditional
      obtain ⟨others, entering', _, members'⟩ := wired.preds_total (wired.ends_live e _ _ onward).2.lt
      simp only [entering', ok_bind]
      split
      · exact .nothing _
      rename_i shaped
      simp only [Bool.or_eq_true, not_or, Bool.not_eq_true', Bool.not_eq_false, Bool.and_eq_true, decide_eq_true_eq,
        Bool.not_eq_true, List.any_eq_false, not_and, not_not] at shaped
      obtain ⟨sides, enclosed⟩ := shaped
      obtain ⟨only, _, unique⟩ := wired.only_entry entering
      -- one edge enters `b`, so a block cannot follow on itself
      have apart : follow ≠ b := by
        rintro rfl
        have toItself : ∃ e edge, g.edges[e]? = some edge ∧ edge.kind ≠ .sequence ∧ g.Joins e head follow := by
          rcases sides with ⟨rfl, _⟩ | ⟨rfl, _⟩
          · obtain ⟨e, edge, atEdge, kind, joins⟩ := branches.no
            exact ⟨e, edge, atEdge, by simp [kind], joins⟩
          · obtain ⟨e, edge, atEdge, kind, joins⟩ := branches.yes
            exact ⟨e, edge, atEdge, by simp [kind], joins⟩
        obtain ⟨e', edge', atEdge', other, joins⟩ := toItself
        rw [unique e' _ joins, ← unique e _ onward, atEdge] at atEdge'
        cases atEdge'
        exact other kind
      have cached : g.Cached b head follow front name := by
        refine ⟨⟨block, found, named⟩, ⟨e, edge, atEdge, kind, onward⟩, entering,
          ⟨cond, whenTrue, whenFalse, branches, sides⟩, fun e' source joins => ?_, apart⟩
        have member := (members' source).mpr ⟨e', joins⟩
        by_contra outside
        rw [not_or] at outside
        exact outside.2 (enclosed source member outside.1)
      have stays := cached.follow_live wired
      obtain ⟨front', atFront⟩ : ∃ front', (g.withoutFill b head).blocks[head]? = some front' :=
        ⟨_, Array.getElem?_eq_getElem (by simpa [Graph.withoutFill] using headInside)⟩
      refine .found ?_ ⟨head, follow, front, name, t, front', cached, atFront, rfl⟩
      rw [modifyBlock_eq_ok.mpr ⟨headInside, rfl⟩, ok_bind]
      change ((g.altered head Block.untested).removeBlock b >>= _) = _
      rw [(altered_wired wired head Block.keepsWiring_untested).removeBlock_eq (by simpa using inside), ok_bind]
      change ((g.withoutFill b head).joinPred follow head >>= _) = _
      have pushing : ((g.withoutFill b head).joined follow head front').pushValue follow (.classOf t) = .ok _ :=
        pushValue_eq_ok.mpr ⟨by simpa using stays.lt, rfl⟩
      rw [(joinPred_eq (wired.withoutFill b head) atFront stays.lt (.inl stays)).1, ok_bind, pushing]
      rfl
    · exact .nothing _
  · exact .nothing _

theorem Wired.foldCachedClass_some (wired : g.Wired) (run : g.foldCachedClass b = .ok (some g')) :
    g.FoldsCached b g' := by
  obtain ⟨_, found, _⟩ := bind_eq_ok.mp run
  exact (wired.foldCachedClass_gives (lt_of_block found)).of_run run

/-- Folding a cached class literal meets no fault. -/
theorem Sturdy.foldCachedClass (sturdy : Sturdy n g) (inside : b < n) : Gives (g.foldCachedClass b) (Sturdy n) := by
  refine (sturdy.wired.foldCachedClass_gives (sturdy.lt inside)).imp fun g' found => ?_
  obtain ⟨head, follow, _, _, _, _, cached, atFront, rfl⟩ := found
  have bare : Sturdy n (g.withoutFill b head) := (sturdy.altered Block.keepsWiring_untested).withoutBlock b
  exact (bare.joined atFront (cached.follow_live sturdy.wired)).pushed follow _

end Graph

end Unstack
