import Unstack.Proofs.Build.Layout

namespace Unstack

variable {o : Operation}

/-- The graph is about the given operations and nothing is known about frames. -/
def Graph.Blank (info : MethodInfo) (ops : List Operation) (g : Graph) : Prop :=
  g.info = info ∧ g.ops = ops.toArray ∧ g.frames = Array.replicate ops.length none

/-- Where a link leads, in the order of the edges that are made for it. -/
def Link.exits : Link → List (EdgeKind × Nat)
  | .sequence target => [(.sequence, target)]
  | .cond target next =>
    if next ≤ target then [(.whenFalse, next), (.whenTrue, target)] else [(.whenTrue, target), (.whenFalse, next)]
  | .switch cases =>
    (Scan.groupCases (cases.mergeSort fun x y => x.1 ≤ y.1)).map fun (target, labels) => (.switchCase labels, target)
  | .enterSub target => [(.enterSub target, target)]

namespace Operation

/-- What leaves a block that ends in the operation. -/
def leaving (o : Operation) : Option Link :=
  if o.instr.endsBlock then o.instr.link? o.pc else some (.sequence (o.pc + 1))

/-- Where a block leads that ends in the operation. -/
def exits (o : Operation) : List (EdgeKind × Nat) := (o.leaving.map Link.exits).getD []

theorem exits_of_inner (inner : o.instr.endsBlock = false) : o.exits = [(.sequence, o.pc + 1)] := by
  simp [exits, leaving, inner, Link.exits]

end Operation

namespace Scan

/-- The links that were recorded for a block. -/
def linksFrom (links : List (BlockId × Nat × Link)) (b : BlockId) : List (BlockId × Nat × Link) :=
  links.filter (·.1 == b)

@[simp] theorem linksFrom_append (links more : List (BlockId × Nat × Link)) (b : BlockId) :
    linksFrom (links ++ more) b = linksFrom links b ++ linksFrom more b := List.filter_append ..

theorem linksFrom_eq_nil {links : List (BlockId × Nat × Link)} {b : BlockId} (absent : ∀ entry ∈ links, entry.1 ≠ b) :
    linksFrom links b = [] := by
  simpa [linksFrom, List.filter_eq_nil_iff] using fun c pc link member => absent (c, pc, link) member

/-- A block that ends in `o` either has all its edges or none of them; in the second case they are still to
be made from the one link that is recorded for it. -/
def Leads (g : Graph) (links : List (BlockId × Nat × Link)) (b : BlockId) (o : Operation) : Prop :=
  (g.exits b = [] ∧ linksFrom links b = o.leaving.toList.map fun link => (b, o.pc, link)) ∨
    (g.exits b = o.exits.map some ∧ linksFrom links b = [])

/-- What a scan keeps about edges and links: the open block has neither, every other block leads to where
its last operation goes. -/
structure Tied (opened : Option BlockId) (s : Scan) : Prop where
  wired : s.graph.Wired
  linked (entry : BlockId × Nat × Link) : entry ∈ s.links → entry.1 < s.graph.blocks.size
  free (b : BlockId) : opened = some b → s.graph.exits b = [] ∧ linksFrom s.links b = []
  leads (b : BlockId) (block : Block) (o : Operation) : s.graph.blocks[b]? = some block → opened ≠ some b →
    block.ops.getLast? = some o → Leads s.graph s.links b o

/-- The state of the scan after `k` operations, the last of which is in the open block if there is one. -/
structure Ready (info : MethodInfo) (ops : List Operation) (k : Nat) (opened : Option BlockId) (s : Scan) : Prop
    extends Layout ops k s, Tied opened s where
  stop (b : BlockId) : opened = some b → ∃ block, s.graph.blocks[b]? = some block ∧ block.stop = k
  after_end (q : Nat) (o : Operation) : ops[q]? = some o → o.instr.endsBlock → q + 1 < k → q + 1 ∈ s.leaders
  blank : s.graph.Blank info ops

theorem Tied.linksFrom_fresh {opened : Option BlockId} {s : Scan} (tied : Tied opened s) :
    linksFrom s.links s.graph.blocks.size = [] :=
  linksFrom_eq_nil fun entry member => Nat.ne_of_lt (tied.linked entry member)

namespace Ready

variable {info : MethodInfo} {ops : List Operation} {k : Nat} {opened : Option BlockId} {s : Scan}

theorem moreLeaders (ready : Ready info ops k opened s) {leaders : List Nat}
    (same : ∀ p < k, p ∈ leaders ↔ p ∈ s.leaders) : Ready info ops k opened { s with leaders } where
  scanned := ready.scanned
  owners := ready.owners
  segment := ready.segment
  owner := ready.owner
  covered := ready.covered
  starts p inside := (same p inside).trans (ready.starts p inside)
  raw := ready.raw
  wired := ready.wired
  linked := ready.linked
  free := ready.free
  leads := ready.leads
  stop := ready.stop
  after_end q o found ends inside := (same _ inside).mpr (ready.after_end q o found ends inside)
  blank := ready.blank

theorem addLeader (ready : Ready info ops k opened s) {pc : Nat} (beyond : k ≤ pc) :
    Ready info ops k opened (s.addLeader pc) := by
  unfold Scan.addLeader
  split
  · exact ready
  · refine ready.moreLeaders fun p inside => ?_
    have other : p ≠ pc := by omega
    simp [other]

/-- The front of a parted block goes on to the part that keeps the exits. -/
theorem splitAt (ready : Ready info ops k opened s) (consecutive : Consecutive 0 ops) {pc : Nat} (inside : pc < k)
    (inner : pc ∉ s.leaders) :
    ∃ s', (s.addLeader pc).splitAt pc = .ok s' ∧ Ready info ops k opened s' ∧ s'.leaders = pc :: s.leaders := by
  obtain ⟨b, whole, owners, found, after, before, run, layout⟩ :=
    ready.toLayout.splitAt consecutive ready.wired inside inner
  have used := (ready.segment b whole found).2.2.2
  have exits := Graph.exits_parted ready.wired found pc
  have openInside (i : BlockId) (isOpen : opened = some i) : i ≠ s.graph.blocks.size := by
    obtain ⟨_, atOpen, _⟩ := ready.stop i isOpen
    exact Nat.ne_of_lt atOpen.lt_size
  refine ⟨_, run, ⟨layout, ⟨ready.wired.parted found used pc, ?linked, ?free, ?leads⟩, ?stop, ?after_end, ready.blank⟩, rfl⟩
  case linked =>
    intro entry member
    simp only [Graph.parted, Array.size_push, Array.size_setIfInBounds]
    exact Nat.lt_succ_of_lt (ready.linked entry member)
  case free =>
    intro i isOpen
    simp only [exits, if_neg (openInside i isOpen)]
    exact ready.free i isOpen
  case leads =>
    intro i block o atIndex notOpen atEnd
    simp only [Leads, exits]
    rcases Graph.parted_cases found atIndex with ⟨rfl, rfl⟩ | ⟨rfl, rfl⟩ | ⟨_, old⟩
    · obtain ⟨stop, atPc⟩ := layout.last consecutive atIndex atEnd
      rw [(ready.parts consecutive found after before).2.1] at stop
      have flows : o.instr.endsBlock = false := by
        by_contra ends
        have known := ready.after_end o.pc o atPc (by simpa using ends) (by omega)
        rw [stop] at known
        exact inner known
      rw [if_pos rfl, o.exits_of_inner flows, stop]
      exact .inr ⟨rfl, ready.linksFrom_fresh⟩
    · rw [if_neg (Nat.ne_of_lt found.lt_size)]
      refine ready.leads i whole o found notOpen ?_
      rw [(ready.parts consecutive found after before).2.2.1, List.getLast?_drop] at atEnd
      unfold Block.stop at before
      rwa [if_neg (by omega)] at atEnd
    · rw [if_neg (Nat.ne_of_lt old.lt_size)]
      exact ready.leads i block o old notOpen atEnd
  case stop =>
    intro i isOpen
    obtain ⟨block, atOpen, stop⟩ := ready.stop i isOpen
    by_cases rear : i = b
    · subst rear
      cases found.some_unique atOpen
      exact ⟨_, Graph.parted_rear pc found, (ready.parts consecutive found after before).2.2.2.trans stop⟩
    · exact ⟨block, Graph.parted_other pc found atOpen rear, stop⟩
  case after_end =>
    intro q o atIndex ends scanned
    exact .tail _ (ready.after_end q o atIndex ends scanned)

end Ready

theorem mem_addLeader (s : Scan) (pc p : Nat) : p ∈ (s.addLeader pc).leaders ↔ p = pc ∨ p ∈ s.leaders := by
  unfold addLeader
  split
  · rename_i known
    simp only [List.contains_eq_mem, decide_eq_true_eq] at known
    exact ⟨.inr, fun either => either.elim (fun same => same ▸ known) id⟩
  · exact List.mem_cons

namespace Ready

variable {info : MethodInfo} {ops : List Operation} {pc : Nat} {opened : Option BlockId} {s : Scan}

/-- A target becomes a leader; behind the scan it parts a block. -/
theorem reach (ready : Ready info ops (pc + 1) opened s) (consecutive : Consecutive 0 ops) (target : Nat) :
    ∃ s', s.reach pc target = .ok s' ∧ Ready info ops (pc + 1) opened s' ∧
      ∀ p, p ∈ s'.leaders ↔ p = target ∨ p ∈ s.leaders := by
  unfold Scan.reach
  by_cases ahead : pc < target
  · rw [if_pos ahead]
    exact ⟨_, rfl, ready.addLeader (by omega), s.mem_addLeader target⟩
  · rw [if_neg ahead]
    by_cases known : target ∈ s.leaders
    · rw [if_pos (by simpa using known)]
      exact ⟨s, rfl, ready, fun p => ⟨.inr, fun either => either.elim (fun same => same ▸ known) id⟩⟩
    · rw [if_neg (by simpa using known)]
      obtain ⟨s', run, ready', leaders⟩ := ready.splitAt consecutive (by omega) known
      exact ⟨s', run, ready', fun p => by rw [leaders, List.mem_cons]⟩

theorem reachAll (ready : Ready info ops (pc + 1) opened s) (consecutive : Consecutive 0 ops) (targets : List Nat) :
    ∃ s', targets.foldlM (Scan.reach pc) s = .ok s' ∧ Ready info ops (pc + 1) opened s' ∧
      ∀ p, p ∈ s'.leaders ↔ p ∈ targets ∨ p ∈ s.leaders := by
  let holds (rest : List Nat) (s' : Scan) : Prop :=
    Ready info ops (pc + 1) opened s' ∧ ∀ p, p ∈ rest ∨ p ∈ s'.leaders ↔ p ∈ targets ∨ p ∈ s.leaders
  obtain ⟨s', run, ready', leaders⟩ := foldlM_total holds (Scan.reach pc) targets s ⟨ready, fun p => Iff.rfl⟩ (by
      rintro target rest s' ⟨now, leaders⟩
      obtain ⟨s'', run, later, more⟩ := now.reach consecutive target
      refine ⟨s'', run, later, fun p => ?_⟩
      rw [more, ← leaders p, List.mem_cons, or_left_comm, or_assoc])
  exact ⟨s', run, ready', fun p => by simpa using leaders p⟩

end Ready

def place (s : Scan) (o : Operation) : BlockId × Scan :=
  let (b, s) := s.blockFor o.pc
  (b, { s with
    graph := { s.graph with blocks := s.graph.blocks.modify b fun block => { block with ops := block.ops ++ [o] } }
    blockOf := s.blockOf.setIfInBounds o.pc (some b) })

def finish (size : Nat) (b : BlockId) (o : Operation) (s : Scan) : Scan :=
  if o.instr.endsBlock then
    let s := if o.pc + 1 < size then s.addLeader (o.pc + 1) else s
    { s with links := s.links ++ (o.instr.link? o.pc).toList.map fun link => (b, o.pc, link), current := none }
  else { s with current := some b }

/-- A step places its operation, marks the targets and finishes. -/
theorem step_eq {size : Nat} {s : Scan} (inside : (s.blockFor o.pc).1 < (s.blockFor o.pc).2.graph.blocks.size)
    (owned : o.pc < (s.blockFor o.pc).2.blockOf.size) :
    s.step size o = (do
      let reached ← o.instr.targets.foldlM (reach o.pc) (s.place o).2
      return reached.finish size (s.place o).1 o) := by
  simp only [step, place, Graph.modifyBlock_eq inside, ok_bind, setOwner, if_pos owned]
  congr 1
  funext reached
  unfold finish
  by_cases ends : o.instr.endsBlock
  · rw [if_pos ends, if_pos ends]
    cases o.instr.link? o.pc <;> simp
  · rw [if_neg ends, if_neg ends]

/-- The operations that start a block as far as the first `k` operations tell, `known` those that do so anyway. -/
def Announced (known : List Nat) (ops : List Operation) (k p : Nat) : Prop :=
  p ∈ known ∨ ∃ q o, q < k ∧ ops[q]? = some o ∧
    (p ∈ o.instr.targets ∨ (o.instr.endsBlock ∧ p = q + 1 ∧ p < ops.length))

theorem announced_succ (known : List Nat) {ops : List Operation} {k : Nat} (next : ops[k]? = some o) (p : Nat) :
    Announced known ops (k + 1) p ↔
      Announced known ops k p ∨ p ∈ o.instr.targets ∨ (o.instr.endsBlock ∧ p = k + 1 ∧ p < ops.length) := by
  unfold Announced
  rw [or_assoc]
  refine or_congr_right ⟨?_, ?_⟩
  · rintro ⟨q, o', below, found, why⟩
    by_cases last : q = k
    · subst last
      cases next.some_unique found
      exact .inr why
    · exact .inl ⟨q, o', by omega, found, why⟩
  · rintro (⟨q, o', below, found, why⟩ | why)
    · exact ⟨q, o', by omega, found, why⟩
    · exact ⟨k, o, by omega, next, why⟩

/-- The state between two operations. The open block goes on with the next one unless that starts a block. -/
structure Between (info : MethodInfo) (known : List Nat) (ops : List Operation) (k : Nat) (s : Scan) : Prop where
  ready : Ready info ops k s.current s
  flows (b : BlockId) (block : Block) (o : Operation) : s.current = some b → s.graph.blocks[b]? = some block →
    block.ops.getLast? = some o → o.instr.endsBlock = false
  begins : s.current = none → k < ops.length → k ∈ s.leaders
  leaders (p : Nat) : p ∈ s.leaders ↔ Announced known ops k p

namespace Between

variable {info : MethodInfo} {known : List Nat} {ops : List Operation} {k : Nat} {s : Scan} {o : Operation}

theorem keepsWiring_append (o : Operation) :
    Graph.KeepsWiring fun block => { block with ops := block.ops ++ [o] } := fun _ => ⟨rfl, rfl, rfl⟩

theorem after_end (between : Between info known ops k s) (next : ops[k]? = some o) {q : Nat} {last : Operation}
    (atIndex : ops[q]? = some last) (ends : last.instr.endsBlock) (scanned : q + 1 < k + 1) : q + 1 ∈ s.leaders := by
  have inside := next.lt_length
  exact (between.leaders (q + 1)).mpr (.inr ⟨q, last, by omega, atIndex, .inr ⟨ends, rfl, by omega⟩⟩)

/-- The next operation starts a block; the block that was open so far leads to it. -/
theorem place_leader (between : Between info known ops k s) (consecutive : Consecutive 0 ops) (next : ops[k]? = some o)
    (leader : k ∈ s.leaders) :
    Ready info ops (k + 1) (some s.graph.blocks.size)
      { s with
        graph := { (s.graph.newBlock k).2 with
          blocks := (s.graph.newBlock k).2.blocks.modify s.graph.blocks.size
            fun block => { block with ops := block.ops ++ [o] } }
        blockOf := s.blockOf.setIfInBounds k (some s.graph.blocks.size)
        links := s.links ++ s.current.toList.map fun prev => (prev, k - 1, .sequence k) } := by
  have ready := between.ready
  have lookup (i : BlockId) : ((s.graph.newBlock k).2.blocks.modify s.graph.blocks.size
      fun block => { block with ops := block.ops ++ [o] })[i]? =
        if i = s.graph.blocks.size then
          some { pc := k, line := s.graph.lineAt k, ops := [o], stmts := [], stack := [], postorder := 0, ins := [],
                 outs := [], unreconstructed := false, removed := false }
        else s.graph.blocks[i]? := by
    rw [Array.getElem?_modify, Graph.newBlock_block]
    by_cases here : s.graph.blocks.size = i
    · subst here
      simp
    · rw [if_neg here, if_neg (Ne.symm here), if_neg (Ne.symm here)]
  have exits (i : BlockId) :
      Graph.exits { (s.graph.newBlock k).2 with
        blocks := (s.graph.newBlock k).2.blocks.modify s.graph.blocks.size
          fun block => { block with ops := block.ops ++ [o] } } i = s.graph.exits i :=
    ((s.graph.newBlock k).2.exits_modify s.graph.blocks.size (keepsWiring_append o) (fun _ => rfl) i).trans
      (Graph.exits_newBlock ready.wired k i)
  have openInside (prev : BlockId) (isOpen : s.current = some prev) : prev < s.graph.blocks.size := by
    obtain ⟨_, found, _⟩ := ready.stop prev isOpen
    exact found.lt_size
  refine ⟨(ready.toLayout.openAt next leader rfl rfl ⟨rfl, rfl, rfl, rfl⟩ lookup).relink _ _,
    ⟨(ready.wired.newBlock k).modify _ (keepsWiring_append o), ?linked, ?free, ?leads⟩, ?stop, ?after_end, ready.blank⟩
  case linked =>
    intro entry member
    simp only [Graph.newBlock, Array.size_modify, Array.size_push]
    rcases List.mem_append.mp member with old | new
    · exact Nat.lt_succ_of_lt (ready.linked entry old)
    · obtain ⟨prev, isOpen, rfl⟩ := List.mem_map.mp new
      exact Nat.lt_succ_of_lt (openInside prev (by simpa using isOpen))
  case free =>
    rintro i ⟨⟩
    simp only [exits]
    refine ⟨by simp [Graph.exits, Graph.outsOf], ?_⟩
    rw [linksFrom_append, ready.linksFrom_fresh, List.nil_append]
    refine linksFrom_eq_nil fun entry member => ?_
    obtain ⟨prev, isOpen, rfl⟩ := List.mem_map.mp member
    exact Nat.ne_of_lt (openInside prev (by simpa using isOpen))
  case leads =>
    intro i block last atIndex notOpen atEnd
    have old : i ≠ s.graph.blocks.size := fun same => notOpen (by rw [same])
    simp only [lookup, if_neg old] at atIndex
    simp only [Leads, exits, linksFrom_append]
    cases isOpen : s.current with
    | none =>
      simp only [Option.toList_none, List.map_nil]
      rw [show linksFrom [] i = [] from rfl, List.append_nil]
      exact ready.leads i block last atIndex (by simp [isOpen]) atEnd
    | some prev =>
      simp only [Option.toList_some, List.map_cons, List.map_nil]
      by_cases here : prev = i
      · subst here
        obtain ⟨block', found, stop⟩ := ready.stop prev isOpen
        cases found.some_unique atIndex
        have atPc := (ready.toLayout.last consecutive found atEnd).1
        have flows := between.flows prev block last isOpen found atEnd
        have leaving : last.leaving = some (.sequence k) := by
          simp only [Operation.leaving, flows, Bool.false_eq_true, if_false, atPc, stop]
        have mine := ready.free prev isOpen
        refine .inl ⟨mine.1, ?_⟩
        rw [mine.2, leaving, show last.pc = k - 1 by omega]
        simp [linksFrom]
      · rw [show linksFrom [(prev, k - 1, .sequence k)] i = [] from linksFrom_eq_nil (by simpa using here), List.append_nil]
        exact ready.leads i block last atIndex (by simpa [isOpen] using here) atEnd
  case stop =>
    rintro i ⟨⟩
    exact ⟨_, (lookup _).trans (if_pos rfl), rfl⟩
  case after_end =>
    intro q last atIndex ends scanned
    exact between.after_end next atIndex ends scanned

theorem place_inner (between : Between info known ops k s) (next : ops[k]? = some o) (inner : k ∉ s.leaders)
    {b : BlockId} (isOpen : s.current = some b) :
    Ready info ops (k + 1) (some b)
      { s with
        graph := { s.graph with
          blocks := s.graph.blocks.modify b fun block => { block with ops := block.ops ++ [o] } }
        blockOf := s.blockOf.setIfInBounds k (some b) } := by
  have ready := between.ready
  obtain ⟨block, found, stop⟩ := ready.stop b isOpen
  have lookup (i : BlockId) :
      (s.graph.blocks.modify b fun block => { block with ops := block.ops ++ [o] })[i]? =
        if i = b then some { block with ops := block.ops ++ [o] } else s.graph.blocks[i]? := by
    rw [Array.getElem?_modify]
    by_cases here : b = i
    · subst here
      simp [found]
    · rw [if_neg here, if_neg (Ne.symm here)]
  have exits := s.graph.exits_modify b (keepsWiring_append o) (fun _ => rfl)
  refine ⟨ready.toLayout.extend next inner found stop lookup,
    ⟨ready.wired.modify b (keepsWiring_append o), ?linked, ?free, ?leads⟩, ?stop, ?after_end, ready.blank⟩
  case linked => simpa using ready.linked
  case free =>
    rintro i ⟨⟩
    simp only [exits]
    exact ready.free b isOpen
  case leads =>
    intro i other last atIndex notOpen atEnd
    simp only [Leads, exits]
    have elsewhere : i ≠ b := fun same => notOpen (by rw [same])
    simp only [lookup, if_neg elsewhere] at atIndex
    exact ready.leads i other last atIndex (by rw [isOpen]; exact notOpen) atEnd
  case stop =>
    rintro i ⟨⟩
    refine ⟨_, (lookup b).trans (if_pos rfl), ?_⟩
    unfold Block.stop at stop ⊢
    simp only [List.length_append, List.length_singleton]
    omega
  case after_end =>
    intro q last atIndex ends scanned
    exact between.after_end next atIndex ends scanned

/-- The operation has a block, old or new, and no leader is added. -/
theorem place (between : Between info known ops k s) (consecutive : Consecutive 0 ops) (next : ops[k]? = some o) :
    (s.blockFor k).1 < (s.blockFor k).2.graph.blocks.size ∧ k < (s.blockFor k).2.blockOf.size ∧
      Ready info ops (k + 1) (some (s.place o).1) (s.place o).2 ∧ (s.place o).2.leaders = s.leaders := by
  have atPc : o.pc = k := by simpa using consecutive k o next
  have inside := next.lt_length
  have owned : k < s.blockOf.size := by rw [between.ready.owners]; exact inside
  unfold Scan.place
  rw [atPc]
  cases isOpen : s.current with
  | none =>
    have ready := between.place_leader consecutive next (between.begins isOpen inside)
    simp only [isOpen, Option.toList_none, List.map_nil, List.append_nil] at ready
    simp only [blockFor, isOpen]
    exact ⟨by simp [Graph.newBlock], owned, ready, trivial⟩
  | some b =>
    by_cases leader : k ∈ s.leaders
    · have ready := between.place_leader consecutive next leader
      simp only [isOpen, Option.toList_some, List.map_cons, List.map_nil] at ready
      simp only [blockFor, isOpen, List.contains_eq_mem, leader, decide_true, if_true]
      exact ⟨by simp [Graph.newBlock], owned, ready, trivial⟩
    · obtain ⟨block, found, _⟩ := between.ready.stop b isOpen
      have ready := between.place_inner next leader isOpen
      simp only [isOpen] at ready
      simp only [blockFor, isOpen, List.contains_eq_mem, leader, decide_false, Bool.false_eq_true, if_false]
      exact ⟨found.lt_size, owned, ready, trivial⟩

end Between

theorem Ready.last_eq {info : MethodInfo} {ops : List Operation} {k : Nat} {b : BlockId} {s : Scan} {last : Operation}
    {block : Block} (ready : Ready info ops (k + 1) (some b) s) (consecutive : Consecutive 0 ops)
    (next : ops[k]? = some o) (found : s.graph.blocks[b]? = some block) (atEnd : block.ops.getLast? = some last) :
    last = o := by
  obtain ⟨block', found', stop⟩ := ready.stop b rfl
  cases found.some_unique found'
  obtain ⟨atPc, atIndex⟩ := ready.toLayout.last consecutive found atEnd
  rw [show last.pc = k by omega, next] at atIndex
  exact (Option.some.inj atIndex).symm

section Finish

variable {info : MethodInfo} {known : List Nat} {ops : List Operation} {k : Nat} {b : BlockId} {s : Scan} {o : Operation}

/-- The block that ends here is linked by its last operation. -/
theorem Ready.closeBlock (ready : Ready info ops (k + 1) (some b) s) (consecutive : Consecutive 0 ops)
    (next : ops[k]? = some o) :
    Ready info ops (k + 1) none
      { s with links := s.links ++ o.leaving.toList.map fun link => (b, o.pc, link), current := none } := by
  refine ⟨ready.toLayout.relink _ _, ⟨ready.wired, ?linked, nofun, ?leads⟩, nofun, ready.after_end, ready.blank⟩
  case linked =>
    intro entry member
    rcases List.mem_append.mp member with old | new
    · exact ready.linked entry old
    · obtain ⟨link, _, rfl⟩ := List.mem_map.mp new
      obtain ⟨_, found, _⟩ := ready.stop b rfl
      exact found.lt_size
  case leads =>
    intro i block last found _ atEnd
    simp only [Leads, linksFrom_append]
    by_cases here : b = i
    · subst here
      have same := ready.last_eq consecutive next found atEnd
      have mine := ready.free b rfl
      refine .inl ⟨mine.1, ?_⟩
      rw [mine.2, same, List.nil_append]
      exact List.filter_eq_self.mpr fun entry member => by
        obtain ⟨link, _, rfl⟩ := List.mem_map.mp member
        simp
    · have others : linksFrom (o.leaving.toList.map fun link => (b, o.pc, link)) i = [] :=
        linksFrom_eq_nil fun entry member => by
          obtain ⟨link, _, rfl⟩ := List.mem_map.mp member
          exact here
      rw [others, List.append_nil]
      exact ready.leads i block last found (by simpa using here) atEnd

/-- A block stays open if its last operation goes on. -/
theorem Ready.finish (ready : Ready info ops (k + 1) (some b) s) (consecutive : Consecutive 0 ops)
    (next : ops[k]? = some o) (leaders : ∀ p, p ∈ s.leaders ↔ p ∈ o.instr.targets ∨ Announced known ops k p) :
    Between info known ops (k + 1) (s.finish ops.length b o) := by
  have atPc : o.pc = k := by simpa using consecutive k o next
  unfold Scan.finish
  by_cases ends : o.instr.endsBlock
  · rw [if_pos ends]
    have more (p : Nat) : p ∈ (if o.pc + 1 < ops.length then s.addLeader (o.pc + 1) else s).leaders ↔
        (p = k + 1 ∧ p < ops.length) ∨ p ∈ s.leaders := by
      by_cases inside : o.pc + 1 < ops.length
      · rw [if_pos inside, mem_addLeader, atPc]
        exact or_congr_left ⟨fun same => ⟨same, by omega⟩, And.left⟩
      · rw [if_neg inside]
        exact ⟨.inr, fun either => either.resolve_left fun ⟨same, below⟩ => inside (by omega)⟩
    have ready' : Ready info ops (k + 1) (some b) (if o.pc + 1 < ops.length then s.addLeader (o.pc + 1) else s) := by
      split
      · exact ready.addLeader (by omega)
      · exact ready
    generalize (if o.pc + 1 < ops.length then s.addLeader (o.pc + 1) else s) = s' at more ready' ⊢
    have closed := ready'.closeBlock consecutive next
    simp only [Operation.leaving, if_pos ends] at closed
    refine ⟨closed, fun _ _ _ isOpen => (nomatch isOpen), fun _ inside => (more _).mpr (.inl ⟨rfl, inside⟩), fun p => ?_⟩
    rw [announced_succ known next]
    simp only [ends, true_and]
    exact (more p).trans ((or_congr_right (leaders p)).trans (by rw [or_comm, or_comm (a := p ∈ _), or_assoc]))
  · rw [if_neg ends]
    have stay : Ready info ops (k + 1) (some b) { s with current := some b } :=
      ⟨ready.toLayout.relink _ _, ⟨ready.wired, ready.linked, ready.free, ready.leads⟩, ready.stop, ready.after_end,
        ready.blank⟩
    refine ⟨stay, ?_, fun isClosed => (nomatch isClosed), fun p => ?_⟩
    · rintro i block last ⟨⟩ found atEnd
      rw [ready.last_eq consecutive next found atEnd]
      simpa using ends
    · rw [announced_succ known next]
      simp only [ends, Bool.false_eq_true, false_and, or_false]
      exact (leaders p).trans or_comm

/-- One step of the scan keeps the invariant. -/
theorem Between.step (between : Between info known ops k s) (consecutive : Consecutive 0 ops) (next : ops[k]? = some o) :
    ∃ s', s.step ops.length o = .ok s' ∧ Between info known ops (k + 1) s' := by
  have atPc : o.pc = k := by simpa using consecutive k o next
  obtain ⟨inside, owned, ready, leaders⟩ := between.place consecutive next
  obtain ⟨reached, run, ready', more⟩ := ready.reachAll consecutive o.instr.targets
  refine ⟨reached.finish ops.length (s.place o).1 o, ?_, ready'.finish consecutive next fun p => ?_⟩
  · rw [step_eq (atPc ▸ inside) (atPc ▸ owned), atPc, run]
    rfl
  · rw [more, leaders, between.leaders]

/-- By induction on the operations, so does the whole scan. -/
theorem Between.run (between : Between info known ops 0 s) (consecutive : Consecutive 0 ops) :
    ∃ s', ops.foldlM (Scan.step ops.length) s = .ok s' ∧ Between info known ops ops.length s' := by
  let holds (rest : List Operation) (s' : Scan) : Prop :=
    Between info known ops (ops.length - rest.length) s' ∧ rest = ops.drop (ops.length - rest.length)
  obtain ⟨s', run, between', _⟩ := foldlM_total holds (Scan.step ops.length) ops s (by simpa [holds] using between) (by
    rintro o rest s' ⟨now, left⟩
    have size : (ops.drop (ops.length - (o :: rest).length)).length = (o :: rest).length := by rw [← left]
    have next : ops[ops.length - (o :: rest).length]? = some o := by
      rw [← List.head?_drop, ← left]
      rfl
    obtain ⟨s'', run, later⟩ := now.step consecutive next
    have one : ops.length - (o :: rest).length + 1 = ops.length - rest.length := by
      simp only [List.length_drop, List.length_cons] at size ⊢
      omega
    refine ⟨s'', run, one ▸ later, ?_⟩
    rw [← one, ← List.drop_drop, ← left]
    rfl)
  exact ⟨s', run, between'⟩

/-- An open block that is left at the end leads behind the last operation. -/
theorem Between.close (between : Between info known ops ops.length s) (consecutive : Consecutive 0 ops) :
    Ready info ops ops.length none (s.close ops.length) := by
  unfold Scan.close
  cases isOpen : s.current with
  | none =>
    have ready := between.ready
    rwa [isOpen] at ready
  | some b =>
    have ready := between.ready
    rw [isOpen] at ready
    obtain ⟨block, found, stop⟩ := ready.stop b rfl
    obtain ⟨last, atEnd⟩ := List.getLast?_isSome.mpr (ready.segment b block found).1 |> Option.isSome_iff_exists.mp
    obtain ⟨atPc, atIndex⟩ := ready.toLayout.last consecutive found atEnd
    have flows := between.flows b block last isOpen found atEnd
    have size : ops.length = last.pc + 1 := by omega
    have closed := Ready.closeBlock (size ▸ ready) consecutive atIndex
    simp only [Operation.leaving, flows, Bool.false_eq_true, if_false, Option.toList_some, List.map_cons,
      List.map_nil] at closed
    rwa [show ops.length - 1 = last.pc by omega, size]

end Finish

def start (m : MethodInput) : Scan :=
  { graph := Graph.empty m.info m.numbered, leaders := m.knownLeaders, blockOf := Array.replicate m.ops.length none,
    links := [], current := none }

theorem Between.first (m : MethodInput) : Between m.info m.knownLeaders m.numbered 0 (start m) := by
  have layout : Layout m.numbered 0 (start m) := by
    constructor <;> simp [start, Graph.empty, Graph.Raw, MethodInput.numbered, Array.getElem?_replicate]
  refine ⟨⟨layout, ⟨Graph.empty_wired .., ?_, ?_, ?_⟩, ?_, ?_, ⟨rfl, rfl, rfl⟩⟩, ?_, ?_, ?_⟩
  all_goals simp [start, Graph.empty, Announced, MethodInput.knownLeaders]

/-- The scan succeeds, and then every operation is in a block. -/
theorem scan_total (m : MethodInput) :
    ∃ s, m.numbered.foldlM (Scan.step m.ops.length) (start m) = .ok s ∧
      Ready m.info m.numbered m.ops.length none (s.close m.ops.length) ∧
      ∀ p, p ∈ (s.close m.ops.length).leaders ↔ Announced m.knownLeaders m.numbered m.ops.length p := by
  have size : m.numbered.length = m.ops.length := by simp [MethodInput.numbered]
  obtain ⟨s, run, between⟩ := (Between.first m).run (.numbered m)
  have ready := between.close (.numbered m)
  have leaders := between.leaders
  rw [size] at run ready leaders
  refine ⟨s, run, ready, fun p => ?_⟩
  rw [← leaders]
  unfold Scan.close
  split <;> rfl

end Scan

end Unstack
