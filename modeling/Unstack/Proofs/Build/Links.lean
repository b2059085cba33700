import Unstack.Proofs.Build.Scan

namespace Unstack

variable {b : BlockId} {g : Graph} {exit : EdgeKind × Nat}

namespace Graph

/-- `g'` is `g` with further edges from `b`, which lead to the given places. -/
structure Grown (b : BlockId) (more : List (EdgeKind × Nat)) (g g' : Graph) : Prop extends SameBodies g g' where
  wired : g'.Wired
  mine : g'.exits b = g.exits b ++ more.map some
  others (i : BlockId) : i ≠ b → g'.exits i = g.exits i

theorem Wired.grown (wired : g.Wired) (b : BlockId) : Grown b [] g g :=
  ⟨.refl g, wired, by simp, fun _ _ => rfl⟩

/-- One edge adds one exit, and no other block notices. -/
theorem Grown.withEdge {g' : Graph} {dest : BlockId} {more : List (EdgeKind × Nat)} {target : Block}
    (grown : Grown b more g g') (kind : EdgeKind) (live : g.Live b) (atDest : g.blocks[dest]? = some target)
    (used : target.removed = false) : Grown b (more ++ [(kind, target.pc)]) g (g'.withEdge b dest kind) := by
  obtain ⟨target', atDest', pc, _⟩ := grown.block atDest
  have live' := grown.live live
  have exits := exits_withEdge grown.wired kind live'.lt atDest'
  refine ⟨grown.trans (.withEdge ..), grown.wired.withEdge kind live' (grown.live ⟨target, atDest, used⟩), ?_, ?_⟩
  · rw [exits, if_pos rfl, grown.mine, pc]
    simp
  · intro i other
    rw [exits, if_neg (Ne.symm other), grown.others i other]

end Graph

theorem Scan.mem_groupCases {cases : List (Nat × CaseLabel)} {group : Nat × List CaseLabel}
    (member : group ∈ groupCases cases) : ∃ label, (group.1, label) ∈ cases := by
  induction cases generalizing group with
  | nil => simp [groupCases] at member
  | cons entry rest ih =>
    obtain ⟨target, label⟩ := entry
    simp only [groupCases] at member
    have later {group : Nat × List CaseLabel} (member : group ∈ groupCases rest) :
        ∃ label', (group.1, label') ∈ (target, label) :: rest := by
      obtain ⟨label', inside⟩ := ih member
      exact ⟨label', .tail _ inside⟩
    split at member
    · rw [List.mem_singleton.mp member]
      exact ⟨label, .head _⟩
    · rename_i next labels groups grouped
      rw [grouped] at later
      split at member
      · rcases List.mem_cons.mp member with rfl | member
        · exact @later (next, labels) (.head _)
        · exact later (.tail _ member)
      · rcases List.mem_cons.mp member with rfl | member
        · exact ⟨label, .head _⟩
        · exact later member

/-- An operation leads to its targets and, unless it ends the flow, to the operation behind it. -/
theorem Operation.mem_exits {o : Operation} (member : exit ∈ o.exits) :
    exit.1.isHandler = false ∧ (exit.2 ∈ o.instr.targets ∨ exit.2 = o.pc + 1 ∧ o.instr.endsFlow = false) := by
  obtain ⟨pc, opcode, line, instr⟩ := o
  by_cases ends : instr.endsBlock
  · simp only [exits, leaving, ends, if_true] at member
    cases instr with
    | switch keys targets fallback =>
      simp only [Instr.link?, Option.map_some, Option.getD_some, Link.exits, List.mem_map] at member
      obtain ⟨group, grouped, rfl⟩ := member
      obtain ⟨label, inside⟩ := Scan.mem_groupCases grouped
      simp only [List.mem_mergeSort, List.mem_append, List.mem_singleton, Prod.mk.injEq] at inside
      refine ⟨rfl, .inl ?_⟩
      rcases inside with inside | ⟨rfl, _⟩
      · exact List.mem_append_left _ (List.of_mem_zip inside).1
      · exact List.mem_append_right _ (.head _)
    | jumpCompare t relation target =>
      simp only [Instr.link?, Option.map_some, Option.getD_some, Link.exits] at member
      split at member <;> simp at member <;> rcases member with rfl | rfl <;>
        simp [EdgeKind.isHandler, Instr.targets, Instr.endsFlow]
    | jumpZero t relation target =>
      simp only [Instr.link?, Option.map_some, Option.getD_some, Link.exits] at member
      split at member <;> simp at member <;> rcases member with rfl | rfl <;>
        simp [EdgeKind.isHandler, Instr.targets, Instr.endsFlow]
    | _ => simp_all [Instr.link?, Link.exits, EdgeKind.isHandler, Instr.targets, Instr.endsFlow]
  · rw [exits_of_inner (by simpa using ends), List.mem_singleton] at member
    subst member
    refine ⟨rfl, .inr ⟨rfl, ?_⟩⟩
    cases instr <;> simp_all [Instr.endsBlock]

namespace Scan

variable {block : Block} {ops : List Operation} {opened : Option BlockId}

theorem Layout.next_starts {k : Nat} {s : Scan} (layout : Layout ops k s) {next : BlockId} {after : Block}
    (found : s.graph.blocks[b]? = some block) (owned : s.blockOf[block.stop]? = some (some next))
    (atNext : s.graph.blocks[next]? = some after) : after.pc = block.stop := by
  obtain ⟨after', atNext', lower, upper⟩ := (layout.owner _ _).mp owned
  cases atNext.some_unique atNext'
  by_contra early
  have positive := List.length_pos_iff.mpr (layout.segment b block found).1
  have mine : s.blockOf[block.stop - 1]? = some (some b) :=
    (layout.owner _ _).mpr ⟨block, found, by unfold Block.stop; omega, by unfold Block.stop; omega⟩
  rw [(layout.owner _ next).mpr ⟨after, atNext, by omega, by omega⟩] at mine
  simp only [Option.some.injEq] at mine
  subst mine
  cases found.some_unique atNext
  omega

/-- A place to which a block leads is where the block that holds it starts. -/
theorem Ready.resolves {info : MethodInfo} {s : Scan} (ready : Ready info ops ops.length opened s)
    (consecutive : Consecutive 0 ops) (targets : ∀ o ∈ ops, ∀ t ∈ o.instr.targets, t ∈ s.leaders) {dest : BlockId}
    {o : Operation} (found : s.graph.blocks[b]? = some block) (atEnd : block.ops.getLast? = some o)
    (leads : exit ∈ o.exits) (owned : s.blockOf[exit.2]? = some (some dest)) :
    ∃ target, s.graph.blocks[dest]? = some target ∧ target.pc = exit.2 ∧ target.removed = false := by
  obtain ⟨target, atDest, _⟩ := (ready.owner _ _).mp owned
  have inside : exit.2 < ops.length := by
    rw [← ready.owners]
    exact owned.lt_size
  obtain ⟨stop, atIndex⟩ := ready.toLayout.last consecutive found atEnd
  refine ⟨target, atDest, ?_, (ready.segment dest target atDest).2.2.2⟩
  rcases (Operation.mem_exits leads).2 with jump | ⟨next, _⟩
  · exact ready.starts_at_leader inside (targets o (List.mem_of_getElem? atIndex) _ jump) owned atDest
  · rw [next, stop] at owned ⊢
    exact ready.next_starts found owned atDest

/-- A target is resolved to the block that owns it. -/
theorem resolve_yields (blockOf : Array (Option BlockId)) (pc target : Nat) :
    (resolve blockOf pc target).Yields fun dest => blockOf[target]? = some (some dest) := by
  unfold resolve
  cases owned : blockOf[target]?.join with
  | none => exact .throw _
  | some dest => exact .pure (by simpa [Option.join_eq_some_iff] using owned)

section Connect

variable {blockOf : Array (Option BlockId)} {g : Graph} {b : BlockId}

/-- A place in the method is known by a block that starts there. -/
def Placed (blockOf : Array (Option BlockId)) (g : Graph) (pc : Nat) : Prop :=
  ∀ dest, blockOf[pc]? = some (some dest) →
    ∃ target, g.blocks[dest]? = some target ∧ target.pc = pc ∧ target.removed = false

theorem connectCases_yields (live : g.Live b) (wired : g.Wired) (pc : Nat) (groups : List (Nat × List CaseLabel))
    (placed : ∀ group ∈ groups, Placed blockOf g group.1) :
    Building.Yields
      (groups.foldlM
        (fun g (target, labels) => do
          let dest ← resolve blockOf pc target
          return (← g.addSwitchCase b dest labels).2)
        g)
      (Graph.Grown b (groups.map fun (target, labels) => (.switchCase labels, target)) g) := by
  let exit (group : Nat × List CaseLabel) : EdgeKind × Nat := (.switchCase group.2, group.1)
  let holds (rest : List (Nat × List CaseLabel)) (g' : Graph) : Prop :=
    ∃ done, groups = done ++ rest ∧ Graph.Grown b (done.map exit) g g'
  refine (Building.Yields.foldlM holds groups g ⟨[], rfl, wired.grown b⟩ ?_).mono ?_
  · rintro ⟨target, labels⟩ rest g' ⟨done, whole, grown⟩
    refine (resolve_yields blockOf pc target).bind fun dest owned => ?_
    obtain ⟨block, atDest, rfl, used⟩ := placed (target, labels) (by simp [whole]) dest owned
    have add := Graph.addEdge_eq (.switchCase labels) (grown.live live).lt (grown.live ⟨block, atDest, used⟩).lt
    refine .bind (.lift add rfl) fun r same => ?_
    subst same
    refine .pure ⟨done ++ [(block.pc, labels)], by simp [whole], ?_⟩
    rw [List.map_append]
    exact grown.withEdge (.switchCase labels) live atDest used
  · rintro g' ⟨done, whole, grown⟩
    rw [List.append_nil] at whole
    rwa [whole]

/-- A link adds the edges of its exits, in their order. -/
theorem connect_yields (wired : g.Wired) (live : g.Live b) (free : g.exits b = []) (pc : Nat) (link : Link)
    (placed : ∀ exit ∈ link.exits, Placed blockOf g exit.2) :
    (connect blockOf g (b, pc, link)).Yields (Graph.Grown b link.exits g) := by
  have start := wired.grown b
  obtain ⟨block, found, used⟩ := live
  have noOuts : block.outs = [] := by rw [← Graph.outsOf_eq found, ← Graph.exits_eq_nil, free]
  have live : g.Live b := ⟨block, found, used⟩
  cases link with
  | sequence target =>
    refine (resolve_yields blockOf pc target).bind fun dest owned => ?_
    obtain ⟨target', atDest, rfl, used'⟩ := placed (.sequence, target) (by simp [Link.exits]) dest owned
    have inside := atDest.lt_size
    refine .bind (.lift (Graph.setSucc_eq block found noOuts inside) rfl) fun r same => ?_
    subst same
    exact .pure (start.withEdge .sequence live atDest used')
  | cond target next =>
    have both : (.whenTrue, target) ∈ Link.exits (.cond target next) ∧
        (.whenFalse, next) ∈ Link.exits (.cond target next) := by
      by_cases falseFirst : next ≤ target <;> simp [Link.exits, falseFirst]
    refine (resolve_yields blockOf pc target).bind fun yes ownedYes => ?_
    refine (resolve_yields blockOf pc next).bind fun no ownedNo => ?_
    obtain ⟨atTarget, atYes, rfl, usedYes⟩ := placed _ both.1 yes ownedYes
    obtain ⟨atNext, atNo, rfl, usedNo⟩ := placed _ both.2 no ownedNo
    refine .lift (Graph.setConds_eq found noOuts atYes atNo) ?_
    simp only [Graph.withConds, Link.exits]
    by_cases falseFirst : atNext.pc ≤ atTarget.pc
    · simp only [falseFirst, decide_true, if_true]
      exact (start.withEdge .whenFalse live atNo usedNo).withEdge .whenTrue live atYes usedYes
    · simp only [falseFirst, decide_false, Bool.false_eq_true, if_false]
      exact (start.withEdge .whenTrue live atYes usedYes).withEdge .whenFalse live atNo usedNo
  | switch cases =>
    refine connectCases_yields live wired pc _ fun group member => ?_
    exact placed (.switchCase group.2, group.1) (List.mem_map.mpr ⟨group, member, rfl⟩)
  | enterSub target =>
    refine (resolve_yields blockOf pc target).bind fun dest owned => ?_
    obtain ⟨target', atDest, rfl, used'⟩ := placed (.enterSub target, target) (by simp [Link.exits]) dest owned
    have inside := atDest.lt_size
    refine .bind (.lift (Graph.addEdge_eq (.enterSub target'.pc) live.lt inside) rfl) fun r same => ?_
    subst same
    exact .pure (start.withEdge (.enterSub target'.pc) live atDest used')

end Connect

/-- The state while links become edges, `todo` those that are left. -/
structure Linking (s : Scan) (todo : List (BlockId × Nat × Link)) (g : Graph) : Prop extends
    Graph.SameBodies s.graph g where
  wired : g.Wired
  inUse (entry : BlockId × Nat × Link) : entry ∈ todo → s.graph.Live entry.1
  leads (b : BlockId) (block : Block) (o : Operation) : s.graph.blocks[b]? = some block →
    block.ops.getLast? = some o → Leads g todo b o

section Connect

variable {info : MethodInfo} {ops : List Operation} {s : Scan}

theorem Ready.lastOf {k : Nat} (ready : Ready info ops k opened s) (found : s.graph.blocks[b]? = some block) :
    ∃ o, block.ops.getLast? = some o :=
  Option.isSome_iff_exists.mp (List.getLast?_isSome.mpr (ready.segment b block found).1)

/-- One link less is pending, and its block leads where it should. -/
theorem Linking.step (ready : Ready info ops ops.length none s) (consecutive : Consecutive 0 ops)
    (targets : ∀ o ∈ ops, ∀ t ∈ o.instr.targets, t ∈ s.leaders) {entry : BlockId × Nat × Link}
    {rest : List (BlockId × Nat × Link)} (linking : Linking s (entry :: rest) g) :
    (connect s.blockOf g entry).Yields (Linking s rest) := by
  obtain ⟨b, pc, link⟩ := entry
  obtain ⟨block, found, used⟩ := linking.inUse _ (.head _)
  obtain ⟨o, atEnd⟩ := ready.lastOf found
  have first : linksFrom ((b, pc, link) :: rest) b = (b, pc, link) :: linksFrom rest b := by simp [linksFrom]
  -- The link at hand is the only one of its block, so the block has no edges yet.
  obtain ⟨free, leaving, none⟩ : g.exits b = [] ∧ o.leaving = some link ∧ linksFrom rest b = [] := by
    rcases linking.leads b block o found atEnd with ⟨free, mine⟩ | ⟨_, mine⟩
    · rw [first] at mine
      cases leaving : o.leaving with
      | none => simp [leaving] at mine
      | some link' =>
        simp only [leaving, Option.toList_some, List.map_cons, List.map_nil, List.cons.injEq, Prod.mk.injEq] at mine
        exact ⟨free, by rw [mine.1.2.2], mine.2⟩
    · rw [first] at mine
      cases mine
  have exits : o.exits = link.exits := by simp [Operation.exits, leaving]
  refine (connect_yields linking.wired (linking.live ⟨block, found, used⟩) free pc link ?_).mono fun g' grown => ?_
  · intro exit member dest owned
    obtain ⟨target, atDest, atPc, usedTarget⟩ :=
      ready.resolves consecutive targets found atEnd (exits ▸ member) owned
    obtain ⟨target', atDest', pc', _, removed⟩ := linking.block atDest
    exact ⟨target', atDest', pc'.trans atPc, removed.trans usedTarget⟩
  · refine ⟨linking.trans grown.toSameBodies, grown.wired,
      fun entry member => linking.inUse entry (.tail _ member), fun i block' o' found' atEnd' => ?_⟩
    by_cases here : b = i
    · subst here
      cases found.some_unique found'
      cases atEnd.some_unique atEnd'
      exact .inr ⟨by rw [grown.mine, free, exits, List.nil_append], none⟩
    · have leads := linking.leads i block' o' found' atEnd'
      have skip : linksFrom ((b, pc, link) :: rest) i = linksFrom rest i := by simp [linksFrom, here]
      unfold Leads at leads ⊢
      rwa [grown.others i (Ne.symm here), ← skip]

/-- Once all links are edges, each block leads to where its last operation goes. -/
theorem Ready.connectAll (ready : Ready info ops ops.length none s) (consecutive : Consecutive 0 ops)
    (targets : ∀ o ∈ ops, ∀ t ∈ o.instr.targets, t ∈ s.leaders) :
    (s.links.foldlM (connect s.blockOf) s.graph).Yields fun g =>
      Graph.SameBodies s.graph g ∧ g.Wired ∧ ∀ (b : BlockId) (block : Block) (o : Operation),
        s.graph.blocks[b]? = some block → block.ops.getLast? = some o → g.exits b = o.exits.map some := by
  have start : Linking s s.links s.graph := by
    refine ⟨.refl _, ready.wired, fun entry member => ?_, fun b block o found atEnd => ?_⟩
    · have found := Array.getElem?_eq_getElem (ready.linked entry member)
      exact ⟨_, found, (ready.segment _ _ found).2.2.2⟩
    · exact ready.leads b block o found (by simp) atEnd
  refine (Building.Yields.foldlM (Linking s) s.links s.graph start ?_).mono ?_
  · exact fun entry rest g linking => linking.step ready consecutive targets
  · intro g linking
    refine ⟨linking.toSameBodies, linking.wired, fun b block o found atEnd => ?_⟩
    rcases linking.leads b block o found atEnd with ⟨free, mine⟩ | ⟨done, _⟩
    · cases leaving : o.leaving with
      | none => simp [free, Operation.exits, leaving]
      | some link => simp [leaving, linksFrom] at mine
    · exact done

end Connect

end Scan

end Unstack
