import Mathlib.Data.List.Sort
import Mathlib.Data.List.Zip
import Unstack.Proofs.Build.Accept

namespace Unstack

/-- Where a switch leads: to each of its targets once, the lowest first, under the keys of the target in the
order of declaration and, at the target of the fallback, under the fallback after them. -/
def Instr.switchExits (keys : List Int) (targets : List Nat) (fallback : Nat) : List (EdgeKind × Nat) :=
  (((keys.zip targets).map Prod.snd ++ [fallback]).dedup.mergeSort).map fun target =>
    let own := (keys.zip targets).filter fun entry => entry.2 == target
    (.switchCase (own.map (fun entry => .int entry.1) ++ if target = fallback then [.fallback] else []), target)

/-- Where control goes on after the last operation of a block, which stands at `pc`. -/
def Instr.exits (pc : Nat) : Instr → List (EdgeKind × Nat)
  | .goto target => [(.sequence, target)]
  | .jumpCompare _ _ target | .jumpZero _ _ target =>
    if pc + 1 ≤ target then [(.whenFalse, pc + 1), (.whenTrue, target)] else [(.whenTrue, target), (.whenFalse, pc + 1)]
  | .switch keys targets fallback => switchExits keys targets fallback
  | .enterSub target => [(.enterSub target, target)]
  | .leave _ | .raise | .leaveSub _ => []
  | _ => [(.sequence, pc + 1)]

namespace Scan

theorem groupCases_ne_nil {entry : Nat × CaseLabel} {rest : List (Nat × CaseLabel)} : groupCases (entry :: rest) ≠ [] := by
  obtain ⟨target, label⟩ := entry
  unfold groupCases
  split
  · simp
  · split <;> simp

/-- The groups of sorted cases: their targets ascend, and each holds the labels of its target. -/
structure Grouped (cases : List (Nat × CaseLabel)) (groups : List (Nat × List CaseLabel)) : Prop where
  ascending : (groups.map Prod.fst).Pairwise (· < ·)
  targets (t : Nat) : t ∈ groups.map Prod.fst ↔ t ∈ cases.map Prod.fst
  labels (group : Nat × List CaseLabel) : group ∈ groups →
    group.2 = (cases.filter fun entry => entry.1 == group.1).map Prod.snd

/-- Labels that are sorted by target are grouped by it and keep their order. -/
theorem grouped_of_sorted {cases : List (Nat × CaseLabel)} (sorted : cases.Pairwise fun x y => x.1 ≤ y.1) :
    Grouped cases (groupCases cases) := by
  induction cases with
  | nil => exact ⟨.nil, by simp [groupCases], by simp [groupCases]⟩
  | cons entry rest ih =>
    obtain ⟨target, label⟩ := entry
    obtain ⟨ascending, targets, labels⟩ := ih sorted.of_cons
    have least (t : Nat) (member : t ∈ rest.map Prod.fst) : target ≤ t := by
      obtain ⟨later, inside, rfl⟩ := List.mem_map.mp member
      exact List.rel_of_pairwise_cons sorted inside
    cases grouped : groupCases rest with
    | nil =>
      cases rest with
      | nil => exact ⟨by simp [groupCases], by simp [groupCases], by simp [groupCases]⟩
      | cons => exact absurd grouped groupCases_ne_nil
    | cons first groups =>
      obtain ⟨next, own⟩ := first
      rw [grouped] at ascending targets labels
      have isTarget : next ∈ rest.map Prod.fst := (targets next).mp (.head _)
      -- The filter of a later group passes over the first case.
      have later (group : Nat × List CaseLabel) (member : group ∈ (next, own) :: groups) (other : target ≠ group.1) :
          group.2 = (((target, label) :: rest).filter fun entry => entry.1 == group.1).map Prod.snd := by
        rw [List.filter_cons_of_neg (by simpa using other)]
        exact labels group member
      simp only [groupCases, grouped]
      by_cases same : target = next
      · subst same
        rw [if_pos rfl]
        refine ⟨ascending, fun t => ?_, fun group member => ?_⟩
        · have old := targets t
          rw [List.map_cons, List.mem_cons] at old ⊢
          rw [List.map_cons, List.mem_cons, ← old, or_self_left]
        · rcases List.mem_cons.mp member with rfl | member
          · rw [List.filter_cons_of_pos (by simp), List.map_cons, ← labels (target, own) (.head _)]
          · have above := List.rel_of_pairwise_cons ascending (List.mem_map_of_mem member)
            exact later group (.tail _ member) (Nat.ne_of_lt above)
      · rw [if_neg same]
        have below : target < next := Nat.lt_of_le_of_ne (least next isTarget) same
        have above (t : Nat) (member : t ∈ ((next, own) :: groups).map Prod.fst) : target < t := by
          rcases List.mem_cons.mp member with rfl | member
          · exact below
          · exact Nat.lt_trans below (List.rel_of_pairwise_cons ascending member)
        refine ⟨List.pairwise_cons.mpr ⟨above, ascending⟩, fun t => ?_, fun group member => ?_⟩
        · rw [List.map_cons, List.mem_cons, targets t, List.map_cons, List.mem_cons]
        · rcases List.mem_cons.mp member with rfl | member
          · have none : rest.filter (fun entry => entry.1 == target) = [] := by
              refine List.filter_eq_nil_iff.mpr fun entry inside => ?_
              have := above entry.1 ((targets entry.1).mpr (List.mem_map_of_mem inside))
              simpa using Nat.ne_of_gt this
            rw [List.filter_cons_of_pos (by simp), none]
            rfl
          · exact later group member (Nat.ne_of_lt (above group.1 (List.mem_map_of_mem member)))

/-- Sorting by target keeps the cases of one target in their order. -/
theorem filter_mergeSort (cases : List (Nat × CaseLabel)) (t : Nat) :
    (cases.mergeSort fun x y => x.1 ≤ y.1).filter (fun entry => entry.1 == t) =
      cases.filter fun entry => entry.1 == t := by
  have sorted : (cases.filter fun entry => entry.1 == t).Pairwise fun x y => decide (x.1 ≤ y.1) = true := by
    refine List.pairwise_of_forall_mem_list fun x inside y inside' => ?_
    have atX : x.1 = t := by simpa using (List.mem_filter.mp inside).2
    have atY : y.1 = t := by simpa using (List.mem_filter.mp inside').2
    simp [atX, atY]
  have within := List.sublist_mergeSort (fun x y z => by simpa using Nat.le_trans)
    (fun x y => by simpa using Nat.le_total x.1 y.1) sorted List.filter_sublist
  have length := ((List.mergeSort_perm cases fun x y => decide (x.1 ≤ y.1)).filter fun entry => entry.1 == t).length_eq
  have filtered := within.filter fun entry => entry.1 == t
  rw [List.filter_filter] at filtered
  simp only [Bool.and_self] at filtered
  exact (filtered.eq_of_length length.symm).symm

/-- What the labels of a switch come to: one group for each target, in ascending order. -/
theorem groupCases_mergeSort (cases : List (Nat × CaseLabel)) :
    groupCases (cases.mergeSort fun x y => x.1 ≤ y.1) =
      ((cases.map Prod.fst).dedup.mergeSort).map fun t => (t, (cases.filter fun entry => entry.1 == t).map Prod.snd) := by
  have sorted : (cases.mergeSort fun x y => decide (x.1 ≤ y.1)).Pairwise fun x y => x.1 ≤ y.1 := by
    refine (List.pairwise_mergeSort (fun x y z => by simpa using Nat.le_trans)
      (fun x y => by simpa using Nat.le_total x.1 y.1) cases).imp fun order => by simpa using order
  obtain ⟨ascending, targets, labels⟩ := grouped_of_sorted sorted
  have own : groupCases (cases.mergeSort fun x y => decide (x.1 ≤ y.1)) =
      ((groupCases (cases.mergeSort fun x y => decide (x.1 ≤ y.1))).map Prod.fst).map fun t =>
        (t, (cases.filter fun entry => entry.1 == t).map Prod.snd) := by
    rw [List.map_map]
    refine (List.map_id _).symm.trans (List.map_congr_left fun group member => ?_)
    have labels := labels group member
    rw [filter_mergeSort] at labels
    exact Prod.ext rfl labels
  rw [own]
  congr 1
  refine List.Perm.eq_of_pairwise' (ascending.imp Nat.le_of_lt) (List.pairwise_mergeSort' (· ≤ ·) _) ?_
  refine .trans ?_ (List.mergeSort_perm ..).symm
  refine (List.perm_ext_iff_of_nodup (ascending.imp Nat.ne_of_lt) (List.nodup_dedup _)).mpr fun t => ?_
  rw [targets, List.mem_dedup, ((List.mergeSort_perm cases _).map Prod.fst).mem_iff]

end Scan

theorem Link.exits_switch (keys : List Int) (targets : List Nat) (fallback : Nat) :
    Link.exits (.switch (targets.zip (keys.map CaseLabel.int) ++ [(fallback, .fallback)])) =
      Instr.switchExits keys targets fallback := by
  have swapped : targets.zip (keys.map CaseLabel.int) = (keys.zip targets).map fun entry => (entry.2, .int entry.1) := by
    rw [List.zip_map_right, ← List.zip_swap, List.map_map]
    rfl
  simp only [Link.exits, Scan.groupCases_mergeSort, Instr.switchExits, swapped, List.map_map]
  have targetsSame : ((keys.zip targets).map (fun entry => (entry.2, CaseLabel.int entry.1)) ++
      [(fallback, CaseLabel.fallback)]).map Prod.fst = (keys.zip targets).map Prod.snd ++ [fallback] := by
    simp
  rw [targetsSame]
  refine List.map_congr_left fun target _ => ?_
  simp only [Function.comp_apply, List.filter_append, List.filter_map, List.map_append, List.map_map]
  by_cases last : target = fallback
  · rw [if_pos last, List.filter_cons_of_pos (by simp [last])]
    rfl
  · rw [if_neg last, List.filter_cons_of_neg (by simpa using Ne.symm last)]
    rfl

/-- The links that are made for an operation lead where the operation goes. -/
theorem Operation.exits_eq (o : Operation) : o.exits = o.instr.exits o.pc := by
  obtain ⟨pc, opcode, line, instr⟩ := o
  cases instr with
  | switch keys targets fallback => exact Link.exits_switch keys targets fallback
  | _ => rfl

namespace Graph

variable {m : MethodInput} {g : Graph}

/-- Where the flow of a block leads, edge by edge. -/
theorem Built.map_flowExits (built : g.Built m) {b : BlockId} {block : Block} {outs : List (EdgeId × Edge)}
    (found : g.blocks[b]? = some block) (leaving : g.outs b = .ok outs) :
    (outs.filter fun (_, edge) => !edge.kind.isHandler).map (fun (_, edge) => (edge.kind, some edge.target)) =
      (g.flowExits b).map fun (kind, pc) => (kind, g.blockAt? pc) := by
  obtain ⟨names, resolved⟩ := (outs_eq_ok found).mp leaving
  have leads (out : EdgeId × Edge) (member : out ∈ outs) :
      ∃ pc, g.exitOf out.1 = some (out.2.kind, pc) ∧ g.blockAt? pc = some out.2.target := by
    have atEdge := resolved out member
    have leaves : out.1 ∈ g.outsOf b := by
      rw [outsOf_eq found, ← names]
      exact List.mem_map_of_mem member
    obtain ⟨_, edge, atEdge', used, source, target⟩ := (built.wired.mem_outs b out.1).mp leaves
    cases atEdge.some_unique atEdge'
    obtain ⟨block', atTarget, _⟩ := (built.wired.ends_live out.1 b out.2.target ⟨_, atEdge, used, source, rfl⟩).2
    exact ⟨block'.pc, exitOf_eq _ _ atEdge atTarget, built.blockAt atTarget⟩
  rw [flowExits, outsOf_eq found, ← names]
  clear names resolved leaving
  induction outs with
  | nil => rfl
  | cons out rest ih =>
    obtain ⟨pc, exit, target⟩ := leads out (.head _)
    have ih := ih fun out' member => leads out' (.tail _ member)
    simp only [List.map_cons, List.filterMap_cons, exit]
    by_cases handler : out.2.kind.isHandler
    · rw [List.filter_cons_of_neg (by simpa using handler), ih]
      simp [Option.filter, handler]
    · rw [List.filter_cons_of_pos (by simpa using handler), List.map_cons, ih]
      simp [Option.filter, handler, target]

/-- A block leads exactly to where control goes on after its last operation: for each place an edge of the
right kind to the block that starts there, in order, and handlers apart no other edge. -/
theorem outs_eq_exits {b : BlockId} {block : Block} {o : Operation} (run : (Graph.ofMethod m).run = .ok (.ok g))
    (live : (b, block) ∈ g.live) (last : block.ops.getLast? = some o) :
    ∃ outs, g.outs b = .ok outs ∧
      (outs.filter fun (_, edge) => !edge.kind.isHandler).map (fun (_, edge) => (edge.kind, some edge.target)) =
        (o.instr.exits o.pc).map fun (kind, pc) => (kind, g.blockAt? pc) := by
  have built := (ofMethod_yields m).of_run run
  have found := built.mem_live.mp live
  obtain ⟨outs, leaving⟩ := built.wired.outs_total found
  refine ⟨outs, leaving, ?_⟩
  rw [built.map_flowExits found leaving, built.flows b block o found last, o.exits_eq]

/-- A switch that jumps back into its own block, to the start of the method, and ahead. -/
def dispatch : MethodInput where
  info := MethodInfo.plain "dispatch" 1 1
  ops := [⟨0, 0, -1, .inc .int 0 (-1)⟩, ⟨0, 0, -1, .inc .int 0 (-1)⟩, ⟨0, 0, -1, .load .int 0⟩,
    ⟨0, 0, -1, .switch [5, 1, 2] [4, 2, 4] 0⟩, ⟨0, 0, -1, .leave .void⟩]
  exceptions := []

theorem outs_eq_exits_dispatch : ∃ g b block o, (Graph.ofMethod dispatch).run = .ok (.ok g) ∧
    (b, block) ∈ g.live ∧ block.ops.getLast? = some o ∧ o.pc = 3 ∧ ∃ outs, g.outs b = .ok outs ∧
      (outs.filter fun (_, edge) => !edge.kind.isHandler).map (fun (_, edge) => (edge.kind, some edge.target)) =
        (o.instr.exits o.pc).map fun (kind, pc) => (kind, g.blockAt? pc) := by
  obtain ⟨g, run⟩ := run_of_wellFormed (m := dispatch) ⟨by decide, by decide, by decide, by rintro o ⟨rfl⟩; rfl⟩
  have built := (ofMethod_yields dispatch).of_run run
  obtain ⟨b, block, found, lower, upper⟩ := built.covered 3 (by decide)
  -- A block starts behind the switch, so the switch is the last operation of the block that holds it.
  obtain ⟨c, next, found', start⟩ := (built.starts 4).mpr ((dispatch.announced_iff_leader 4).mpr (by decide))
  have positive := List.length_pos_iff.mpr (built.segment c next found').1
  have stop : block.stop = 4 := by
    by_contra beyond
    have same := built.apart b c block next 4 found found' (by omega) (by omega) (by omega) (by unfold Block.stop; omega)
    subst same
    cases Option.some.inj (found.symm.trans found')
    omega
  have nonempty := (built.segment b block found).1
  have last := List.getLast?_eq_some_getLast nonempty
  have pc := built.op_pc found (List.getLast?_eq_getElem?.symm.trans last)
  have positive' := List.length_pos_iff.mpr nonempty
  unfold Block.stop at stop
  have live := built.mem_live.mpr found
  exact ⟨g, b, block, _, run, live, last, by omega, outs_eq_exits run live last⟩

end Graph

end Unstack
