import Unstack.Proofs.Graph.Sturdy

namespace Unstack

/-- What a block holds, apart from its place in the graph. -/
structure Content where
  ops : List Operation
  stmts : List Stmt
  stack : List StackValue
  unreconstructed : Bool

def Block.content (block : Block) : Content := ⟨block.ops, block.stmts, block.stack, block.unreconstructed⟩

def Block.push (value : StackValue) (block : Block) : Block := { block with stack := value :: block.stack }

namespace Content

/-- What is left when all is moved elsewhere. -/
def cleared (c : Content) : Content := ⟨[], [], [], c.unreconstructed⟩

def before (front c : Content) : Content :=
  ⟨front.ops ++ c.ops, front.stmts ++ c.stmts, c.stack ++ front.stack, c.unreconstructed || front.unreconstructed⟩

def push (value : StackValue) (c : Content) : Content := { c with stack := value :: c.stack }

def unbranched (c : Content) : Content := { c with stmts := c.stmts.dropLast }

end Content

namespace Graph

variable {n : Nat} {g g' : Graph} {b : BlockId} {change : Block → Block}

def contentOf (g : Graph) (b : BlockId) : Option Content := g.blocks[b]?.map Block.content

theorem contentOf_eq {block : Block} (found : g.blocks[b]? = some block) : g.contentOf b = some block.content := by
  simp [contentOf, found]

def altered (g : Graph) (b : BlockId) (change : Block → Block) : Graph := { g with blocks := g.blocks.modify b change }

theorem modifyBlock_eq_ok : g.modifyBlock b change = .ok g' ↔ b < g.blocks.size ∧ g' = g.altered b change := by
  unfold modifyBlock
  split
  · rename_i inside
    simp only [Except.ok.injEq, inside, true_and]
    exact eq_comm
  · simp [*]

theorem altered_block (b : BlockId) (change : Block → Block) (i : BlockId) :
    (g.altered b change).blocks[i]? = if b = i then g.blocks[i]?.map change else g.blocks[i]? := by
  simp only [altered, Array.getElem?_modify]

theorem altered_self {block : Block} (found : g.blocks[b]? = some block) (change : Block → Block) :
    (g.altered b change).blocks[b]? = some (change block) := by
  rw [altered_block, if_pos rfl, found, Option.map_some]

@[simp] theorem altered_size (b : BlockId) (change : Block → Block) :
    (g.altered b change).blocks.size = g.blocks.size := by
  simp [altered]

theorem altered_live (keeps : KeepsWiring change) (i : BlockId) : (g.altered b change).Live i ↔ g.Live i := by
  simp only [Live, altered_block]
  split
  · simp only [Option.map_eq_some_iff, ↓existsAndEq, and_true, (keeps _).2.2]
  · rfl

theorem altered_wired (wired : g.Wired) (b : BlockId) (keeps : KeepsWiring change) :
    (g.altered b change).Wired := wired.modify b keeps

theorem Sturdy.altered (sturdy : Sturdy n g) (keeps : KeepsWiring change) : Sturdy n (g.altered b change) :=
  ⟨altered_wired sturdy.wired b keeps, (altered_size b change).trans sturdy.size, sturdy.start⟩

theorem altered_altered (b : BlockId) (change change' : Block → Block) :
    (g.altered b change).altered b change' = g.altered b (change' ∘ change) := by
  simp only [altered]
  congr 1
  apply Array.ext_getElem?
  intro i
  simp only [Array.getElem?_modify]
  split <;> simp

/-- A change shows in the content of its own block only. -/
theorem contentOf_altered {f : Content → Content} (agrees : ∀ block, (change block).content = f block.content)
    (i : BlockId) : (g.altered b change).contentOf i = if b = i then (g.contentOf i).map f else g.contentOf i := by
  simp only [contentOf, altered_block]
  split
  · simp [Function.comp_def, agrees]
  · rfl

def pushed (g : Graph) (b : BlockId) (expr : Expr) : Graph :=
  { g with nextValue := g.nextValue + 1 }.altered b (Block.push ⟨g.nextValue, expr⟩)

theorem pushValue_eq_ok {expr : Expr} : g.pushValue b expr = .ok g' ↔ b < g.blocks.size ∧ g' = g.pushed b expr :=
  modifyBlock_eq_ok

theorem keepsWiring_push (value : StackValue) : KeepsWiring (Block.push value) := fun _ => ⟨rfl, rfl, rfl⟩

theorem pushed_live (b : BlockId) (expr : Expr) (i : BlockId) : (g.pushed b expr).Live i ↔ g.Live i :=
  altered_live (keepsWiring_push _) i

theorem pushed_wired (wired : g.Wired) (b : BlockId) (expr : Expr) : (g.pushed b expr).Wired := by
  have same : { g with nextValue := g.nextValue + 1 }.Wired :=
    wired.congr (fun _ => rfl) (fun _ => rfl) (fun _ _ _ => .rfl) fun _ => id
  exact altered_wired same b (keepsWiring_push _)

theorem Sturdy.pushed (sturdy : Sturdy n g) (b : BlockId) (expr : Expr) : Sturdy n (g.pushed b expr) :=
  (sturdy.withNextValue (g.nextValue + 1)).altered (keepsWiring_push _)

theorem contentOf_pushed (b : BlockId) (expr : Expr) (i : BlockId) :
    (g.pushed b expr).contentOf i =
      if b = i then (g.contentOf i).map (Content.push ⟨g.nextValue, expr⟩) else g.contentOf i :=
  contentOf_altered (fun _ => rfl) i

theorem contentOf_withEdge (source target : BlockId) (kind : EdgeKind) (i : BlockId) :
    (g.withEdge source target kind).contentOf i = g.contentOf i := by
  simp only [contentOf, withEdge_block, Option.map_map]
  rfl

theorem contentOf_without (gone : List EdgeId) (i : BlockId) : (g.without gone).contentOf i = g.contentOf i := by
  simp only [contentOf, without_block, Option.map_map]
  rfl

theorem contentOf_withoutBlock (b i : BlockId) : (g.withoutBlock b).contentOf i = g.contentOf i := by
  simp only [contentOf, withoutBlock_block, Option.map_map]
  rfl

theorem contentOf_withoutBlocks (dead : List BlockId) (i : BlockId) :
    (g.withoutBlocks dead).contentOf i = g.contentOf i := by
  induction dead generalizing g with
  | nil => rfl
  | cons b rest ih => exact ih.trans (contentOf_withoutBlock b i)

theorem contentOf_movedIns (source dest : BlockId) (entering : List EdgeId) (i : BlockId) :
    (g.movedIns source dest entering).contentOf i = g.contentOf i := by
  simp only [contentOf, movedIns_block, Option.map_map]
  rfl

/-- Numbering the blocks leaves their content. -/
theorem Renumbered.contentOf (numbered : Renumbered g g') (i : BlockId) : g'.contentOf i = g.contentOf i := by
  obtain ⟨number, found⟩ := numbered.blocks i
  simp only [Graph.contentOf, found, Option.map_map]
  rfl

/-- What the one block held is put in front of what the other holds. -/
theorem contentOf_joined (b pred : BlockId) (front : Block) (i : BlockId) :
    (g.joined b pred front).contentOf i = ((g.contentOf i).map fun c => if pred = i then c.cleared else c).map
      fun c => if b = i then front.content.before c else c := by
  rw [joined, contentOf_withoutBlock, contentOf_movedIns]
  simp only [contentOf, gathered, Array.getElem?_modify]
  by_cases atBlock : b = i <;> by_cases atPred : pred = i <;> cases g.blocks[i]? <;>
    simp [atBlock, atPred, prepend, Block.content, Content.before, Content.cleared]

theorem contentOf_joined_of_ne (b : BlockId) {pred : BlockId} (front : Block) {i : BlockId} (other : i ≠ pred) :
    (g.joined b pred front).contentOf i =
      if b = i then (g.contentOf i).map front.content.before else g.contentOf i := by
  rw [contentOf_joined]
  by_cases atBlock : b = i <;> simp [atBlock, Ne.symm other]

end Graph

end Unstack
