import Unstack.Proofs.Graph.Removal

namespace Unstack.Graph

/-- A graph with `n` blocks in which every name stands for something. The start may have been removed. -/
structure Sturdy (n : Nat) (g : Graph) : Prop where
  wired : g.Wired
  size : g.blocks.size = n
  start : g.start < n

/-- An edit that meets no fault, and after which every name still stands for something. -/
def Keeps (n : Nat) (edit : Checked Graph) : Prop := ∃ g', edit = .ok g' ∧ Sturdy n g'

theorem withoutBlocks_start {g : Graph} (dead : List BlockId) : (g.withoutBlocks dead).start = g.start := by
  induction dead generalizing g with
  | nil => rfl
  | cons b rest ih =>
    have others : ((g.withoutBlock b).withoutBlocks rest).start = (g.withoutBlock b).start := ih
    exact others

section Reading

variable {g : Graph} {b : BlockId}

/-- The predecessors of a block are the sources of the edges that enter it. -/
theorem Wired.preds_total (wired : g.Wired) (inside : b < g.blocks.size) :
    ∃ preds, g.preds b = .ok preds ∧ preds.length = (g.insOf b).length ∧ ∀ p, p ∈ preds ↔ ∃ e, g.Joins e p b := by
  obtain ⟨ins, run, names, joins⟩ := wired.entering inside
  refine ⟨ins.map fun entry => entry.2.source, by simp only [preds, run, ok_bind]; rfl,
    by rw [← names, List.length_map, List.length_map], fun p => ⟨fun member => ?_, ?_⟩⟩
  · obtain ⟨entry, listed, rfl⟩ := List.mem_map.mp member
    exact ⟨entry.1, (joins entry listed).2⟩
  · rintro ⟨e, joined⟩
    have named := (wired.mem_ins b e).mpr ⟨p, joined⟩
    rw [← names] at named
    obtain ⟨entry, listed, rfl⟩ := List.mem_map.mp named
    exact List.mem_map.mpr ⟨entry, listed, ((joins entry listed).2.unique joined).1⟩

/-- The successor by a kind of edge, if there is one, is joined to the block by an edge of that kind. -/
theorem Wired.targetOf_total (wired : g.Wired) (inside : b < g.blocks.size) (kind : EdgeKind) :
    Gives (g.targetOf kind b) fun c => ∃ e edge, g.edges[e]? = some edge ∧ edge.kind = kind ∧ g.Joins e b c := by
  obtain ⟨outs, run, joins⟩ := wired.leaving inside
  refine ⟨_, by simp only [targetOf, run, ok_bind]; rfl, fun c chosen => ?_⟩
  obtain ⟨⟨e, edge⟩, first, rfl⟩ := Option.map_eq_some_iff.mp chosen
  obtain ⟨atEdge, joined⟩ := joins _ (List.mem_of_find?_eq_some first)
  exact ⟨e, edge, atEdge, by simpa using List.find?_some first, joined⟩

end Reading

namespace Sturdy

variable {n : Nat} {g : Graph} {b : BlockId}

theorem lt (sturdy : Sturdy n g) (inside : b < n) : b < g.blocks.size := by
  rw [sturdy.size]
  exact inside

theorem live_lt (sturdy : Sturdy n g) (live : g.Live b) : b < n := by
  rw [← sturdy.size]
  exact live.lt

/-- A block below the bound can always be read. -/
theorem block_total (sturdy : Sturdy n g) (inside : b < n) : ∃ block, g.block b = .ok block ∧ g.blocks[b]? = some block :=
  ⟨_, block_eq_ok.mpr (Array.getElem?_eq_getElem (sturdy.lt inside)), Array.getElem?_eq_getElem (sturdy.lt inside)⟩

/-- A change that leaves the edges of a block alone meets no fault. -/
theorem modifyBlock (sturdy : Sturdy n g) (inside : b < n) (change : Block → Block) (keeps : KeepsWiring change) :
    Keeps n (g.modifyBlock b change) :=
  ⟨_, modifyBlock_eq (sturdy.lt inside) change, sturdy.wired.modify b keeps, by simpa using sturdy.size, sturdy.start⟩

theorem withNextValue (sturdy : Sturdy n g) (nextValue : Nat) : Sturdy n { g with nextValue } :=
  ⟨sturdy.wired.congr (fun _ => rfl) (fun _ => rfl) (fun _ _ _ => .rfl) fun _ => id, sturdy.size, sturdy.start⟩

theorem pushValue (sturdy : Sturdy n g) (inside : b < n) (expr : Expr) : Keeps n (g.pushValue b expr) := by
  refine (sturdy.withNextValue (g.nextValue + 1)).modifyBlock inside
    (fun block => { block with stack := ⟨g.nextValue, expr⟩ :: block.stack }) ?_
  exact fun _ => ⟨rfl, rfl, rfl⟩

theorem pushStmt (sturdy : Sturdy n g) (inside : b < n) (stmt : Stmt) : Keeps n (g.pushStmt b stmt) :=
  sturdy.modifyBlock inside _ fun _ => ⟨rfl, rfl, rfl⟩

theorem withoutBlock (sturdy : Sturdy n g) (b : BlockId) : Sturdy n (g.withoutBlock b) :=
  ⟨sturdy.wired.withoutBlock b, (withoutBlock_size b).trans sturdy.size, sturdy.start⟩

/-- The front of a block becomes a part of it. If the graph started there, it starts with the block instead. -/
theorem joined (sturdy : Sturdy n g) {pred : BlockId} {front : Block} (found : g.blocks[pred]? = some front)
    (live : g.Live b) : Sturdy n (g.joined b pred front) := by
  refine ⟨(joinPred_eq sturdy.wired found live.lt (.inl live)).2, (joined_size ..).trans sturdy.size, ?_⟩
  have bound := sturdy.live_lt live
  have start := sturdy.start
  change (if g.start = pred then b else g.start) < n
  split <;> assumption

theorem withEdge (sturdy : Sturdy n g) {target : BlockId} (kind : EdgeKind) (live : g.Live b)
    (liveTarget : g.Live target) : Sturdy n (g.withEdge b target kind) :=
  ⟨sturdy.wired.withEdge kind live liveTarget, (withEdge_size ..).trans sturdy.size, sturdy.start⟩

theorem without (sturdy : Sturdy n g) (gone : List EdgeId) : Sturdy n (g.without gone) :=
  ⟨sturdy.wired.without gone, (without_size gone).trans sturdy.size, sturdy.start⟩

/-- Blocks are marked as removed but keep their places, so their number stays the same. -/
theorem withoutBlocks (sturdy : Sturdy n g) (dead : List BlockId) : Sturdy n (g.withoutBlocks dead) :=
  ⟨sturdy.wired.withoutBlocks dead, (withoutBlocks_size dead).trans sturdy.size,
    (withoutBlocks_start dead).symm ▸ sturdy.start⟩

/-- What cannot be reached is taken out without a fault. -/
theorem removeUnreachable (sturdy : Sturdy n g) : ∃ count g', g.removeUnreachable = .ok (count, g') ∧ Sturdy n g' := by
  obtain ⟨dead, run, _⟩ := sturdy.wired.removeUnreachable_eq (sturdy.lt sturdy.start)
  exact ⟨_, _, run, sturdy.withoutBlocks dead⟩

end Sturdy

end Unstack.Graph
