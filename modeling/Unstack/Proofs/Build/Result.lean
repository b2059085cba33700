import Unstack.Proofs.Build.Links
import Unstack.Proofs.Graph.Search

namespace Unstack

variable {g : Graph} {s : Scan}

namespace Graph

variable {g : Graph} {change : Edge → Edge}

/-- A change of the kind of an edge that keeps handlers apart from other edges. -/
theorem flowExits_modifyEdge {e : EdgeId} {edge : Edge} (found : g.edges[e]? = some edge)
    (same : (change edge).target = edge.target) (before : edge.kind.isHandler) (after : (change edge).kind.isHandler)
    (b : BlockId) : Graph.flowExits { g with edges := g.edges.modify e change } b = g.flowExits b := by
  refine flowExits_congr b rfl fun e' _ => ?_
  simp only [exitOf, Array.getElem?_modify]
  by_cases here : e = e'
  · subst here
    cases atTarget : g.blocks[edge.target]? <;> simp [found, same, atTarget, before, after, Option.filter]
  · rw [if_neg here]

theorem Wired.modifyEdge (wired : g.Wired) (e : EdgeId)
    (same : ∀ edge, (change edge).source = edge.source ∧ (change edge).target = edge.target ∧
      (change edge).removed = edge.removed) :
    Wired { g with edges := g.edges.modify e change } := by
  have ends : SameEnds g { g with edges := g.edges.modify e change } := by
    intro e'
    simp only [Array.getElem?_modify]
    by_cases here : e = e' <;> cases g.edges[e']? <;> simp [here, same]
  exact wired.congr (fun _ => rfl) (fun _ => rfl) ends.joins_iff fun _ live => live

/-- A handler changes neither blocks nor the flow without exceptions. -/
theorem Wired.addHandler (wired : g.Wired) {b handler : BlockId} (live : g.Live b) (liveHandler : g.Live handler)
    (t : Option JavaType) :
    ∃ r, g.addHandler b handler t = .ok r ∧ SameBodies g r.2 ∧ r.2.Wired ∧ ∀ i, r.2.flowExits i = g.flowExits i := by
  have ⟨block, found, _⟩ := live
  have ⟨target, atTarget, _⟩ := liveHandler
  obtain ⟨outs, leaving⟩ := wired.outs_total found
  simp only [Graph.addHandler, leaving, ok_bind]
  split
  · rename_i e edge chosen
    have atEdge := ((outs_eq_ok found).mp leaving).2 _ (List.mem_of_find?_eq_some chosen)
    have isHandler : edge.kind.isHandler := by
      have test := List.find?_some chosen
      simp only [Bool.and_eq_true] at test
      exact test.2
    simp only [modifyEdge_eq atEdge.lt_size, ok_bind]
    refine ⟨_, rfl, ⟨⟨rfl, rfl, fun _ => rfl⟩, rfl, id⟩, wired.modifyEdge e fun _ => ⟨rfl, rfl, rfl⟩, ?_⟩
    exact flowExits_modifyEdge atEdge rfl isHandler (by simpa [catching_isHandler] using isHandler)
  · refine ⟨_, addEdge_eq (.handler [t]) live.lt liveHandler.lt, .withEdge .., wired.withEdge _ live liveHandler, ?_⟩
    exact flowExits_withHandler wired [t] live.lt atTarget

end Graph

namespace Scan

/-- A range changes neither the code of a block nor its flow. -/
theorem cover_yields (same : Graph.SameBodies s.graph g) (wired : g.Wired) (r : ExceptionRange)
    (owners : ∀ (p : Nat) (b : BlockId), s.blockOf[p]? = some (some b) → s.graph.Live b) :
    (cover s.blockOf g r).Yields fun g' =>
      Graph.SameBodies g g' ∧ g'.Wired ∧ ∀ i, g'.flowExits i = g.flowExits i := by
  refine (resolve_yields s.blockOf r.startPc r.handlerPc).bind fun handler owned => ?_
  let holds (rest : List (BlockId × Block)) (g' : Graph) : Prop :=
    (∀ entry ∈ rest, g.Live entry.1) ∧ Graph.SameBodies g g' ∧ g'.Wired ∧ ∀ i, g'.flowExits i = g.flowExits i
  have liveHandler := same.live (owners _ _ owned)
  refine (Building.Yields.foldlM holds _ g ⟨?_, .refl g, wired, fun _ => rfl⟩ ?_).mono fun g' kept => kept.2
  · intro entry member
    obtain ⟨found, used⟩ := Graph.mem_live.mp (List.mem_filter.mp member).1
    exact ⟨_, found, used⟩
  · rintro ⟨b, block⟩ rest g' ⟨live, same', wired', flows⟩
    obtain ⟨r', run, same'', wired'', flows'⟩ :=
      wired'.addHandler (same'.live (live _ (.head _))) (same'.live liveHandler) r.catchType
    refine .bind (.lift run rfl) fun r'' final => ?_
    subst final
    exact .pure ⟨fun entry member => live entry (.tail _ member), same'.trans same'', wired'',
      fun i => (flows' i).trans (flows i)⟩

theorem coverAll_yields (same : Graph.SameBodies s.graph g) (wired : g.Wired) (ranges : List ExceptionRange)
    (owners : ∀ (p : Nat) (b : BlockId), s.blockOf[p]? = some (some b) → s.graph.Live b) :
    (ranges.foldlM (cover s.blockOf) g).Yields fun g' =>
      Graph.SameBodies g g' ∧ g'.Wired ∧ ∀ i, g'.flowExits i = g.flowExits i := by
  let holds (_ : List ExceptionRange) (g' : Graph) : Prop :=
    Graph.SameBodies g g' ∧ g'.Wired ∧ ∀ i, g'.flowExits i = g.flowExits i
  refine Building.Yields.foldlM holds ranges g ⟨.refl g, wired, fun _ => rfl⟩ ?_
  rintro r rest g' ⟨same', wired', flows⟩
  refine (cover_yields (same.trans same') wired' r owners).mono ?_
  rintro g'' ⟨same'', wired'', flows'⟩
  exact ⟨same'.trans same'', wired'', fun i => (flows' i).trans (flows i)⟩

end Scan

namespace MethodInput

theorem forM_eq_ok {ε α : Type} {check : α → Except ε Unit} {items : List α} (passed : items.forM check = .ok ()) :
    ∀ item ∈ items, check item = .ok () := by
  induction items with
  | nil => simp
  | cons item rest ih =>
    change (check item >>= fun _ => rest.forM check) = .ok () at passed
    cases first : check item with
    | error e => simp [first, bind, Except.bind] at passed
    | ok u =>
      rw [first, ok_bind] at passed
      exact List.forall_mem_cons.mpr ⟨first, ih passed⟩

variable {m : MethodInput}

/-- A method that passes the check jumps to its own operations only. -/
theorem target_lt (passed : m.checkTargets = .ok ()) {pc target : Nat} {o : Operation} (found : m.ops[pc]? = some o)
    (jumps : target ∈ o.instr.targets) : target < m.ops.length := by
  have check := forM_eq_ok passed (o, pc) (List.mem_zipIdx_iff_getElem?.mpr found)
  simp only at check
  split at check
  · cases check
  · rename_i none
    simpa using List.find?_eq_none.mp none target jumps

theorem rangeFits_of_checked (passed : m.checkRanges = .ok ()) {r : ExceptionRange} (member : r ∈ m.exceptions) :
    r.startPc < r.endPc ∧ r.endPc ≤ m.ops.length ∧ r.handlerPc < m.ops.length := by
  have check := forM_eq_ok passed r member
  by_cases fits : m.rangeFits r
  · simpa [rangeFits, and_assoc] using fits
  · simp [fits] at check

theorem numbered_length (m : MethodInput) : m.numbered.length = m.ops.length := by simp [numbered]

theorem numbered_eq_some {pc : Nat} {o : Operation} :
    m.numbered[pc]? = some o ↔ ∃ o', m.ops[pc]? = some o' ∧ o = { o' with pc } := by
  simp only [numbered, List.getElem?_map, List.getElem?_zipIdx, Option.map_map, Option.map_eq_some_iff]
  simp [eq_comm]

/-- In a method that passes the checks, only operations of the method start a block. -/
theorem announced_lt (nonempty : m.ops ≠ []) (targets : m.checkTargets = .ok ()) (ranges : m.checkRanges = .ok ())
    {p : Nat} (announced : Scan.Announced m.knownLeaders m.numbered m.ops.length p) : p < m.ops.length := by
  rcases announced with known | ⟨q, o, _, found, jumps | ⟨_, _, inside⟩⟩
  · simp only [knownLeaders, List.mem_cons, List.mem_flatMap, List.mem_append] at known
    rcases known with rfl | ⟨r, member, border⟩
    · exact List.length_pos_iff.mpr nonempty
    · obtain ⟨order, last, handler⟩ := rangeFits_of_checked ranges member
      rcases border with border | border
      · simp only [List.not_mem_nil, or_false] at border
        rcases border with rfl | rfl <;> omega
      · split at border
        · rwa [List.mem_singleton.mp border]
        · cases border
  · obtain ⟨o', found', rfl⟩ := numbered_eq_some.mp found
    exact target_lt targets found' jumps
  · rwa [numbered_length] at inside

end MethodInput

namespace Graph

variable {m : MethodInput}

/-- The blocks of a graph are a partition of the operations of the method, and they start where a block has to
start. -/
structure Laid (m : MethodInput) (g : Graph) : Prop where
  info : g.info = m.info
  ops : g.ops = m.numbered.toArray
  segment (b : BlockId) (block : Block) : g.blocks[b]? = some block →
    block.ops ≠ [] ∧ block.ops <+: m.numbered.drop block.pc ∧ block.removed = false
  covered (p : Nat) : p < m.ops.length →
    ∃ (b : BlockId) (block : Block), g.blocks[b]? = some block ∧ block.pc ≤ p ∧ p < block.stop
  apart (b c : BlockId) (block other : Block) (p : Nat) : g.blocks[b]? = some block → g.blocks[c]? = some other →
    block.pc ≤ p → p < block.stop → other.pc ≤ p → p < other.stop → b = c
  starts (p : Nat) : (∃ (b : BlockId) (block : Block), g.blocks[b]? = some block ∧ block.pc = p) ↔
    Scan.Announced m.knownLeaders m.numbered m.ops.length p

/-- What is known about the graph of a method: its blocks lead where their last operations go, and no frame is
known yet. -/
structure Built (m : MethodInput) (g : Graph) : Prop extends Laid m g where
  wired : g.Wired
  flows (b : BlockId) (block : Block) (o : Operation) : g.blocks[b]? = some block → block.ops.getLast? = some o →
    g.flowExits b = o.exits
  frames : g.frames = Array.replicate m.ops.length none
  start : ∃ block, g.blocks[g.start]? = some block ∧ block.pc = 0
  listed (b : BlockId) : b ∈ g.postorder ↔ g.Reachable b
  once : g.postorder.Nodup
  raw : g.Raw

theorem Built.start_lt (built : g.Built m) : g.start < g.size := by
  obtain ⟨block, found, _⟩ := built.start
  exact found.lt_size

/-- After the last operation the blocks partition the method. -/
theorem Laid.of_scan (ready : Scan.Ready m.info m.numbered m.ops.length none s)
    (leaders : ∀ p, p ∈ s.leaders ↔ Scan.Announced m.knownLeaders m.numbered m.ops.length p)
    (inside : ∀ p, Scan.Announced m.knownLeaders m.numbered m.ops.length p → p < m.ops.length) : s.graph.Laid m where
  info := ready.blank.1
  ops := ready.blank.2.1
  segment b block found := by
    have part := ready.segment b block found
    exact ⟨part.1, part.2.1, part.2.2.2⟩
  covered p below := by
    obtain ⟨b, owned⟩ := ready.covered p below
    exact ⟨b, (ready.owner p b).mp owned⟩
  apart b c block other p found found' lower upper lower' upper' := by
    have mine := (ready.owner p b).mpr ⟨block, found, lower, upper⟩
    rw [(ready.owner p c).mpr ⟨other, found', lower', upper'⟩] at mine
    simpa using mine.symm
  starts p := by
    constructor
    · rintro ⟨b, block, found, rfl⟩
      have part := ready.segment b block found
      have positive := List.length_pos_iff.mpr part.1
      have bound := part.2.2.1
      unfold Block.stop at bound
      exact (leaders _).mp ((ready.starts _ (by omega)).mpr ⟨b, block, found, rfl⟩)
    · intro announced
      exact (ready.starts p (inside p announced)).mp ((leaders p).mpr announced)

theorem Laid.congr {g' : Graph} (laid : g.Laid m) (same : SameCode g g') : g'.Laid m := by
  have back {b : BlockId} {block : Block} (found : g'.blocks[b]? = some block) :
      ∃ old, g.blocks[b]? = some old ∧ old.pc = block.pc ∧ old.ops = block.ops ∧ old.removed = block.removed ∧
        old.stop = block.stop := by
    obtain ⟨old, found', pc, ops, removed⟩ := same.symm.block found
    exact ⟨old, found', pc, ops, removed, by simp [Block.stop, pc, ops]⟩
  have forth {b : BlockId} {block : Block} (found : g.blocks[b]? = some block) :
      ∃ new, g'.blocks[b]? = some new ∧ new.pc = block.pc ∧ new.stop = block.stop := by
    obtain ⟨new, found', pc, ops, _⟩ := same.block found
    exact ⟨new, found', pc, by simp [Block.stop, pc, ops]⟩
  constructor
  case info => exact same.info.trans laid.info
  case ops => exact same.ops.trans laid.ops
  case segment =>
    intro b block found
    obtain ⟨old, found', pc, ops, removed, _⟩ := back found
    have part := laid.segment b old found'
    rwa [pc, ops, removed] at part
  case covered =>
    intro p below
    obtain ⟨b, block, found, lower, upper⟩ := laid.covered p below
    obtain ⟨new, found', pc, stop⟩ := forth found
    exact ⟨b, new, found', by omega, by omega⟩
  case apart =>
    intro b c block other p found found' lower upper lower' upper'
    obtain ⟨old, atOld, pc, _, _, stop⟩ := back found
    obtain ⟨old', atOld', pc', _, _, stop'⟩ := back found'
    exact laid.apart b c old old' p atOld atOld' (by omega) (by omega) (by omega) (by omega)
  case starts =>
    intro p
    rw [← laid.starts p]
    constructor
    · rintro ⟨b, block, found, rfl⟩
      obtain ⟨old, found', pc, _⟩ := back found
      exact ⟨b, old, found', pc⟩
    · rintro ⟨b, block, found, rfl⟩
      obtain ⟨new, found', pc, _⟩ := forth found
      exact ⟨b, new, found', pc⟩

/-- Adding edges afterwards does not move operations. -/
theorem Built.of_scan {g' : Graph} (ready : Scan.Ready m.info m.numbered m.ops.length none s)
    (leaders : ∀ p, p ∈ s.leaders ↔ Scan.Announced m.knownLeaders m.numbered m.ops.length p)
    (inside : ∀ p, Scan.Announced m.knownLeaders m.numbered m.ops.length p → p < m.ops.length)
    (same : SameBodies s.graph g) (wired : g.Wired)
    (flows : ∀ (b : BlockId) (block : Block) (o : Operation), s.graph.blocks[b]? = some block →
      block.ops.getLast? = some o → g.flowExits b = o.exits)
    (atStart : s.blockOf[0]? = some (some g.start)) (numbered : Renumbered g g') : g'.Built m := by
  have same' := same.trans numbered.sameBodies
  refine ⟨(Laid.of_scan ready leaders inside).congr same'.toSameCode, numbered.wired wired, ?flows, ?frames, ?start,
    fun b => (numbered.listed b).trans (numbered.reachable_iff b).symm, numbered.once,
    same'.raw ready.raw⟩
  case flows =>
    intro b block o found atEnd
    obtain ⟨old, found', _, ops, _⟩ := same'.symm.block found
    rw [numbered.flowExits, flows b old o found' (ops ▸ atEnd)]
  case frames =>
    rw [same'.frames, ready.blank.2.2, m.numbered_length]
  case start =>
    obtain ⟨block, found, lower, _⟩ := (ready.owner 0 g.start).mp atStart
    obtain ⟨new, found', pc, _⟩ := same'.block found
    exact ⟨new, numbered.start ▸ found', by omega⟩

/-- Whatever graph is built for a method is a graph of this method. -/
theorem ofMethod_yields (m : MethodInput) : (Graph.ofMethod m).Yields (Graph.Built m) := by
  have checked (check : Except AnalysisError Unit) :
      Building.Yields (ExceptT.mk (.ok check)) fun _ => check = .ok () := ⟨check, rfl, fun _ passed => passed⟩
  obtain ⟨scanned, run, ready, leaders⟩ := Scan.scan_total m
  have targets (o : Operation) (member : o ∈ m.numbered) (t : Nat) (jumps : t ∈ o.instr.targets) :
      t ∈ (scanned.close m.ops.length).leaders := by
    obtain ⟨q, found⟩ := List.mem_iff_getElem?.mp member
    have inside := found.lt_length
    exact (leaders t).mpr (.inr ⟨q, o, m.numbered_length ▸ inside, found, .inl jumps⟩)
  have owners (p : Nat) (b : BlockId) (owned : (scanned.close m.ops.length).blockOf[p]? = some (some b)) :
      (scanned.close m.ops.length).graph.Live b := by
    obtain ⟨block, found, _⟩ := (ready.owner p b).mp owned
    exact ⟨block, found, (ready.segment b block found).2.2.2⟩
  unfold Graph.ofMethod
  split
  · exact .throw _
  rename_i nonempty
  refine (checked _).bind fun _ targetsFit => (checked _).bind fun _ rangesFit => ?_
  refine .bind (.lift run rfl) fun s same => ?_
  subst same
  refine (Scan.Ready.connectAll (by rw [m.numbered_length]; exact ready) (.numbered m) targets).bind ?_
  rintro g ⟨sameBodies, wired, exits⟩
  refine (Scan.coverAll_yields sameBodies wired m.exceptions owners).bind ?_
  rintro g' ⟨sameBodies', wired', flows⟩
  refine (Scan.resolve_yields _ 0 0).bind fun start atStart => ?_
  have wired'' : Graph.Wired { g' with start } := wired'.congr (fun _ => rfl) (fun _ => rfl) (fun _ _ _ => .rfl) fun _ => id
  have live := (sameBodies.trans sameBodies').live (owners _ _ atStart)
  obtain ⟨g'', renumber, numbered⟩ := wired''.renumber live.lt
  refine .lift renumber (Built.of_scan ready leaders (fun p => ?_) ?_ wired'' ?_ atStart numbered)
  · exact MethodInput.announced_lt (by simpa using nonempty) targetsFit rangesFit
  · exact sameBodies.trans ⟨⟨sameBodies'.info, sameBodies'.ops, sameBodies'.body⟩, sameBodies'.frames, sameBodies'.raw⟩
  · intro b block o found atEnd
    exact (flows b).trans (flowExits_eq (exits b block o found atEnd) fun exit member => (Operation.mem_exits member).1)

end Graph

end Unstack
