import Unstack.Proofs.Build.Partition

namespace Unstack

variable {pc : Nat} {b : BlockId} {link : Link}

namespace Building

variable {α β : Type} {e : AnalysisError}

theorem bind_run_ok {x : Building α} {next : α → Building β} {b : β} (run : (x >>= next).run = .ok (.ok b)) :
    ∃ a, x.run = .ok (.ok a) ∧ (next a).run = .ok (.ok b) := by
  change (x.run >>= _) = _ at run
  obtain ⟨outcome, ran, run⟩ := bind_eq_ok.mp run
  cases outcome with
  | error e => cases run
  | ok a => exact ⟨a, ran, run⟩

theorem lift_run_ok {x : Checked α} {a : α} (run : (liftM x : Building α).run = .ok (.ok a)) : x = .ok a := by
  cases x with
  | error fault => cases run
  | ok a' =>
    cases run
    rfl

theorem bind_run_error {x : Building α} {next : α → Building β} (run : (x >>= next).run = .ok (.error e)) :
    x.run = .ok (.error e) ∨ ∃ a, x.run = .ok (.ok a) ∧ (next a).run = .ok (.error e) := by
  change (x.run >>= _) = _ at run
  obtain ⟨outcome, ran, run⟩ := bind_eq_ok.mp run
  cases outcome with
  | error e' =>
    cases run
    exact .inl ran
  | ok a => exact .inr ⟨a, ran, run⟩

theorem lift_run_ne_error (x : Checked α) : (liftM x : Building α).run ≠ .ok (.error e) := by
  intro run
  cases x <;> cases run

/-- A fold that ends in an error has a step that does. -/
theorem foldlM_run_error {step : β → α → Building β} {items : List α} {first : β}
    (run : (items.foldlM step first).run = .ok (.error e)) :
    ∃ item ∈ items, ∃ b, (step b item).run = .ok (.error e) := by
  induction items generalizing first with
  | nil => cases run
  | cons item rest ih =>
    rw [List.foldlM_cons] at run
    rcases bind_run_error run with here | ⟨b, _, later⟩
    · exact ⟨item, .head _, first, here⟩
    · obtain ⟨other, member, failed⟩ := ih later
      exact ⟨other, .tail _ member, failed⟩

end Building

namespace Scan

variable {blockOf : Array (Option BlockId)} {g : Graph} {e : AnalysisError}

/-- No block holds the operation. -/
def Homeless (blockOf : Array (Option BlockId)) (pc : Nat) : Prop := ∀ b, blockOf[pc]? ≠ some (some b)

/-- Only a jump to where no block is fails, and it is reported. -/
theorem resolve_error {target : Nat} (run : (resolve blockOf pc target).run = .ok (.error e)) :
    Homeless blockOf target ∧ e = .unresolvedTarget pc target := by
  unfold resolve at run
  split at run
  · cases run
  · rename_i none
    cases run
    refine ⟨fun b owned => ?_, rfl⟩
    rw [owned] at none
    cases none

/-- A link that cannot be followed leads to an operation that is in no block. -/
theorem connect_error (run : (connect blockOf g (b, pc, link)).run = .ok (.error e)) :
    ∃ exit ∈ link.exits, Homeless blockOf exit.2 ∧ e = .unresolvedTarget pc exit.2 := by
  cases link with
  | sequence target =>
    rcases Building.bind_run_error run with failed | ⟨_, _, run⟩
    · exact ⟨(.sequence, target), .head _, resolve_error failed⟩
    · rcases Building.bind_run_error run with failed | ⟨_, _, run⟩
      · exact absurd failed (Building.lift_run_ne_error _)
      · cases run
  | cond target next =>
    rcases Building.bind_run_error run with failed | ⟨_, _, run⟩
    · refine ⟨(.whenTrue, target), ?_, resolve_error failed⟩
      by_cases order : next ≤ target <;> simp [Link.exits, order]
    · rcases Building.bind_run_error run with failed | ⟨_, _, run⟩
      · refine ⟨(.whenFalse, next), ?_, resolve_error failed⟩
        by_cases order : next ≤ target <;> simp [Link.exits, order]
      · exact absurd run (Building.lift_run_ne_error _)
  | switch cases =>
    obtain ⟨group, member, _, run⟩ := Building.foldlM_run_error run
    rcases Building.bind_run_error run with failed | ⟨_, _, run⟩
    · exact ⟨(.switchCase group.2, group.1), List.mem_map.mpr ⟨group, member, rfl⟩, resolve_error failed⟩
    · rcases Building.bind_run_error run with failed | ⟨_, _, run⟩
      · exact absurd failed (Building.lift_run_ne_error _)
      · cases run
  | enterSub target =>
    rcases Building.bind_run_error run with failed | ⟨_, _, run⟩
    · exact ⟨(.enterSub target, target), .head _, resolve_error failed⟩
    · rcases Building.bind_run_error run with failed | ⟨_, _, run⟩
      · exact absurd failed (Building.lift_run_ne_error _)
      · cases run

/-- Covering fails only for a handler without a block. -/
theorem cover_error {r : ExceptionRange} (run : (cover blockOf g r).run = .ok (.error e)) :
    Homeless blockOf r.handlerPc := by
  rcases Building.bind_run_error run with failed | ⟨_, _, run⟩
  · exact (resolve_error failed).1
  · obtain ⟨_, _, _, run⟩ := Building.foldlM_run_error run
    rcases Building.bind_run_error run with failed | ⟨_, _, run⟩
    · exact absurd failed (Building.lift_run_ne_error _)
    · cases run

variable {info : MethodInfo} {ops : List Operation} {s : Scan}

theorem Ready.le_of_homeless {opened : Option BlockId} {k : Nat} (ready : Ready info ops k opened s)
    (homeless : Homeless s.blockOf pc) : k ≤ pc := by
  by_contra inside
  obtain ⟨b, owned⟩ := ready.covered pc (by omega)
  exact homeless b owned

/-- A pending link stems from the last operation of its block. -/
theorem Ready.link_origin {k : Nat} (ready : Ready info ops k none s) (member : (b, pc, link) ∈ s.links) :
    ∃ block o, s.graph.blocks[b]? = some block ∧ block.ops.getLast? = some o ∧ o.pc = pc ∧ o.leaving = some link := by
  have found := Array.getElem?_eq_getElem (ready.linked _ member)
  obtain ⟨o, atEnd⟩ := ready.lastOf found
  have mine : (b, pc, link) ∈ linksFrom s.links b := List.mem_filter.mpr ⟨member, by simp⟩
  refine ⟨_, o, found, atEnd, ?_⟩
  rcases ready.leads b _ o found (by simp) atEnd with ⟨_, own⟩ | ⟨_, none⟩
  · rw [own] at mine
    obtain ⟨link', leaving, same⟩ := List.mem_map.mp mine
    cases same
    exact ⟨rfl, by simpa using leaving⟩
  · rw [none] at mine
    cases mine

end Scan

/-- Where an operation does not end the flow, control can go on with the next one. -/
theorem Operation.next_mem_exits {o : Operation} (goesOn : o.instr.endsFlow = false) :
    ∃ kind, (kind, o.pc + 1) ∈ o.exits := by
  obtain ⟨pc, opcode, line, instr⟩ := o
  cases instr with
  | jumpCompare t relation target =>
    refine ⟨.whenFalse, ?_⟩
    by_cases order : pc + 1 ≤ target <;> simp [exits, leaving, Instr.endsBlock, Instr.link?, Link.exits, order]
  | jumpZero t relation target =>
    refine ⟨.whenFalse, ?_⟩
    by_cases order : pc + 1 ≤ target <;> simp [exits, leaving, Instr.endsBlock, Instr.link?, Link.exits, order]
  | goto | leave | raise | switch | leaveSub | enterSub => cases goesOn
  | _ => exact ⟨.sequence, .head _⟩

namespace MethodInput

/-- What a method must be like to have a graph: it has operations, all jumps and exception ranges stay inside, and
control does not leave it behind its last operation. -/
structure WellFormed (m : MethodInput) : Prop where
  nonempty : m.ops ≠ []
  targets (o : Operation) : o ∈ m.ops → ∀ t ∈ o.instr.targets, t < m.ops.length
  ranges (r : ExceptionRange) : r ∈ m.exceptions →
    r.startPc < r.endPc ∧ r.endPc ≤ m.ops.length ∧ r.handlerPc < m.ops.length
  closed (o : Operation) : m.ops.getLast? = some o → o.instr.endsFlow = true

/-- The error tells what is wrong with the method. -/
inductive Flaw (m : MethodInput) : AnalysisError → Prop
  | empty : m.ops = [] → m.Flaw .emptyMethod
  | target {pc t : Nat} {o : Operation} : m.ops[pc]? = some o → t ∈ o.instr.targets → m.ops.length ≤ t →
    m.Flaw (.unresolvedTarget pc t)
  | range {r : ExceptionRange} : r ∈ m.exceptions →
    ¬ (r.startPc < r.endPc ∧ r.endPc ≤ m.ops.length ∧ r.handlerPc < m.ops.length) →
    m.Flaw (.malformedRange r.startPc r.endPc r.handlerPc)
  /-- The next operation would be the one behind the last. -/
  | unclosed {o : Operation} : m.ops.getLast? = some o → o.instr.endsFlow = false →
    m.Flaw (.unresolvedTarget (m.ops.length - 1) m.ops.length)

variable {m : MethodInput} {e : AnalysisError}

/-- Each flaw contradicts one of the rules for a method. -/
theorem Flaw.not_wellFormed (flaw : m.Flaw e) : ¬ m.WellFormed := by
  intro wellFormed
  cases flaw with
  | empty none => exact wellFormed.nonempty none
  | target found jumps outside =>
    have inside := wellFormed.targets _ (List.mem_of_getElem? found) _ jumps
    omega
  | range member unfit => exact unfit (wellFormed.ranges _ member)
  | unclosed last goesOn =>
    rw [wellFormed.closed _ last] at goesOn
    cases goesOn

theorem forM_eq_error {α : Type} {check : α → Except AnalysisError Unit} {items : List α}
    (failed : items.forM check = .error e) : ∃ item ∈ items, check item = .error e := by
  induction items with
  | nil => cases failed
  | cons item rest ih =>
    change (check item >>= fun _ => rest.forM check) = .error e at failed
    cases first : check item with
    | error e' =>
      rw [first] at failed
      cases failed
      exact ⟨item, .head _, first⟩
    | ok u =>
      rw [first, ok_bind] at failed
      obtain ⟨other, member, failed⟩ := ih failed
      exact ⟨other, .tail _ member, failed⟩

theorem flaw_of_checkTargets (failed : m.checkTargets = .error e) : m.Flaw e := by
  obtain ⟨⟨o, pc⟩, member, failed⟩ := forM_eq_error failed
  simp only at failed
  split at failed
  · rename_i target chosen
    cases failed
    exact .target (List.mem_zipIdx_iff_getElem?.mp member) (List.mem_of_find?_eq_some chosen)
      (by simpa using List.find?_some chosen)
  · cases failed

theorem flaw_of_checkRanges (failed : m.checkRanges = .error e) : m.Flaw e := by
  obtain ⟨r, member, failed⟩ := forM_eq_error failed
  split at failed
  · cases failed
  · rename_i unfit
    cases failed
    exact .range member (by simpa [rangeFits, and_assoc] using unfit)

/-- A link finds no block only if the last operation goes on past the end. -/
theorem flaw_of_link {s : Scan} (targets : m.checkTargets = .ok ())
    (ready : Scan.Ready m.info m.numbered m.ops.length none s) (member : (b, pc, link) ∈ s.links)
    {exit : EdgeKind × Nat} (leads : exit ∈ link.exits) (homeless : Scan.Homeless s.blockOf exit.2) :
    m.Flaw (.unresolvedTarget pc exit.2) := by
  obtain ⟨block, o, found, atEnd, rfl, leaving⟩ := ready.link_origin member
  obtain ⟨_, atPc⟩ := ready.toLayout.last (.numbered m) found atEnd
  obtain ⟨source, atSource, same⟩ := numbered_eq_some.mp atPc
  have outside := ready.le_of_homeless homeless
  have inside := atSource.lt_length
  have exits : exit ∈ o.exits := by simpa [Operation.exits, leaving] using leads
  have instr : o.instr = source.instr := by rw [same]
  rcases (Operation.mem_exits exits).2 with jumps | ⟨next, goesOn⟩
  · have target := target_lt targets atSource (instr ▸ jumps)
    omega
  · have last : o.pc = m.ops.length - 1 := by omega
    rw [next, show o.pc + 1 = m.ops.length by omega, last]
    refine .unclosed (o := source) ?_ (instr ▸ goesOn)
    rw [List.getLast?_eq_getElem?, ← last, atSource]

/-- Every error of the construction tells what is wrong with the method. -/
theorem flaw_of_error (run : (Graph.ofMethod m).run = .ok (.error e)) : m.Flaw e := by
  obtain ⟨scanned, scanning, ready, _⟩ := Scan.scan_total m
  unfold Graph.ofMethod at run
  split at run
  · rename_i none
    cases run
    exact .empty (by simpa using none)
  rename_i nonempty
  rcases Building.bind_run_error run with failed | ⟨_, targets, run⟩
  · exact flaw_of_checkTargets (Except.ok.inj failed)
  rcases Building.bind_run_error run with failed | ⟨_, ranges, run⟩
  · exact flaw_of_checkRanges (Except.ok.inj failed)
  rcases Building.bind_run_error run with failed | ⟨s, ran, run⟩
  · exact absurd failed (Building.lift_run_ne_error _)
  obtain rfl : s = scanned := (Building.lift_run_ok ran).ok_unique scanning
  rcases Building.bind_run_error run with failed | ⟨_, _, run⟩
  · obtain ⟨⟨b, pc, link⟩, member, _, failed⟩ := Building.foldlM_run_error failed
    obtain ⟨exit, leads, homeless, rfl⟩ := Scan.connect_error failed
    exact flaw_of_link (Except.ok.inj targets) ready member leads homeless
  -- handlers and the first operation are inside the method, so nothing else can fail
  rcases Building.bind_run_error run with failed | ⟨_, _, run⟩
  · obtain ⟨r, member, _, failed⟩ := Building.foldlM_run_error failed
    have outside := ready.le_of_homeless (Scan.cover_error failed)
    have inside := (rangeFits_of_checked (Except.ok.inj ranges) member).2.2
    omega
  rcases Building.bind_run_error run with failed | ⟨_, _, run⟩
  · have outside := ready.le_of_homeless (Scan.resolve_error failed).1
    have positive := List.length_pos_iff.mpr (show m.ops ≠ [] by simpa using nonempty)
    omega
  · exact absurd run (Building.lift_run_ne_error _)

end MethodInput

namespace Graph

variable {m : MethodInput} {g : Graph}

theorem Laid.extent (laid : g.Laid m) {block : Block} (found : g.blocks[b]? = some block) :
    block.pc < block.stop ∧ block.stop ≤ m.ops.length := by
  obtain ⟨nonempty, ⟨rest, within⟩, _⟩ := laid.segment b block found
  have positive := List.length_pos_iff.mpr nonempty
  have length := congrArg List.length within
  simp only [List.length_append, List.length_drop, m.numbered_length] at length
  unfold Block.stop
  omega

/-- The last operation of a method that has a graph ends the flow: behind it no block starts. -/
theorem Built.closed (built : g.Built m) {last : Operation} (atEnd : m.ops.getLast? = some last) :
    last.instr.endsFlow = true := by
  rw [List.getLast?_eq_getElem?] at atEnd
  have inside := atEnd.lt_length
  obtain ⟨b, block, found, lower, upper⟩ := built.covered _ inside
  have stop := (built.extent found).2
  unfold Block.stop at upper stop
  -- the block that holds the last operation ends with it
  have atIndex := List.getElem?_eq_getElem (show block.ops.length - 1 < block.ops.length by omega)
  have atLast := List.getLast?_eq_getElem?.trans atIndex
  generalize block.ops[block.ops.length - 1] = o at atIndex atLast
  have pc := built.op_pc found atIndex
  have whole := built.op_numbered found atIndex
  rw [show block.pc + (block.ops.length - 1) = m.ops.length - 1 by omega] at pc whole
  obtain ⟨source, atSource, same⟩ := MethodInput.numbered_eq_some.mp whole
  cases atSource.some_unique atEnd
  have instr : o.instr = last.instr := by rw [same]
  rw [← instr, ← Bool.not_eq_false]
  intro goesOn
  obtain ⟨kind, leads⟩ := Operation.next_mem_exits goesOn
  rw [← built.flows b block o found atLast] at leads
  obtain ⟨e, _, exit⟩ := List.mem_filterMap.mp leads
  obtain ⟨edge, _, exit⟩ := Option.bind_eq_some_iff.mp (Option.filter_eq_some_iff.mp exit).1
  obtain ⟨next, atNext, exit⟩ := Option.bind_eq_some_iff.mp exit
  have start : next.pc = o.pc + 1 := congrArg Prod.snd (Option.some.inj exit)
  have behind := built.extent atNext
  omega

/-- Only a well-formed method gets a graph. -/
theorem wellFormed_of_run (run : (Graph.ofMethod m).run = .ok (.ok g)) : m.WellFormed := by
  have built := (ofMethod_yields m).of_run run
  unfold Graph.ofMethod at run
  split at run
  · cases run
  rename_i nonempty
  obtain ⟨_, targets, run⟩ := Building.bind_run_ok run
  obtain ⟨_, ranges, _⟩ := Building.bind_run_ok run
  refine ⟨by simpa using nonempty, fun o member t jumps => ?_, fun r member => ?_, fun o atEnd => built.closed atEnd⟩
  · obtain ⟨pc, found⟩ := List.mem_iff_getElem?.mp member
    exact MethodInput.target_lt (Except.ok.inj targets) found jumps
  · exact MethodInput.rangeFits_of_checked (Except.ok.inj ranges) member

/-- Every well-formed method gets a graph. -/
theorem run_of_wellFormed (wellFormed : m.WellFormed) : ∃ g, (Graph.ofMethod m).run = .ok (.ok g) := by
  obtain ⟨outcome, run, _⟩ := ofMethod_yields m
  cases outcome with
  | ok g => exact ⟨g, run⟩
  | error e => exact absurd wellFormed (MethodInput.flaw_of_error run).not_wellFormed

/-- A method has a graph exactly if it has operations, all its jumps, exception ranges and handlers stay inside, and
its last operation ends the flow. Every other method is refused, with an error that tells what is wrong with it. -/
theorem ofMethod_accepts_iff (m : MethodInput) :
    ((∃ g, (Graph.ofMethod m).run = .ok (.ok g)) ↔ m.WellFormed) ∧
      ((∃ e, (Graph.ofMethod m).run = .ok (.error e) ∧ m.Flaw e) ↔ ¬ m.WellFormed) := by
  refine ⟨⟨fun built => ?_, run_of_wellFormed⟩, fun failed => ?_, fun refused => ?_⟩
  · obtain ⟨g, run⟩ := built
    exact wellFormed_of_run run
  · obtain ⟨e, _, flaw⟩ := failed
    exact flaw.not_wellFormed
  · obtain ⟨outcome, run, _⟩ := ofMethod_yields m
    cases outcome with
    | ok g => exact absurd (wellFormed_of_run run) refused
    | error e => exact ⟨e, run, MethodInput.flaw_of_error run⟩

end Graph

end Unstack
