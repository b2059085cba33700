import Unstack.Proofs.Build.Result
import Unstack.Proofs.Graph.Exclusive
import Unstack.Proofs.Recovery.Folding
import Unstack.Recovery.SwitchLabel

namespace Unstack

variable {kind : EdgeKind}

theorem EdgeKind.isSwitchCase_of_isFallback (falls : kind.isFallback = true) : kind.isSwitchCase = true := by
  unfold isFallback at falls
  unfold isSwitchCase
  split at falls
  · rename_i labels
    simp [labels]
  · cases falls

/-- Names on the labels of a case do not change what kind of edge it is. -/
theorem EdgeKind.plain_named (names : List (Int × String)) (kind : EdgeKind) :
    (kind.named names).plain = kind.plain := by cases kind <;> rfl

namespace Graph

variable {n : Nat} {g g' : Graph} {b : BlockId}

theorem Wired.targetOf_live (wired : g.Wired) (live : g.Live b) (kind : EdgeKind) : Gives (g.targetOf kind b) g.Live := by
  refine (wired.targetOf_total live.lt kind).imp fun c found => ?_
  obtain ⟨e, _, _, _, joined⟩ := found
  exact (wired.ends_live e _ _ joined).2

/-- A block that does nothing but jump leads to a block in use. -/
theorem Wired.jumpOn?_total (wired : g.Wired) (live : g.Live b) : Gives (g.jumpOn? b) g.Live := by
  obtain ⟨target, run, onward⟩ := wired.targetOf_live live .sequence
  obtain ⟨block, found, _⟩ := live
  simp only [jumpOn?, block_eq_ok.mpr found, succ, run, ok_bind]
  cases target with
  | none => exact .nothing _
  | some next =>
    simp only
    split
    · exact .found rfl (onward next rfl)
    · exact .nothing _

/-- By induction on the jumps that may still be followed. -/
theorem Wired.skipJumps_total (wired : g.Wired) (left : Nat) (live : g.Live b) :
    ∃ c, g.skipJumps left b = .ok c ∧ g.Live c := by
  induction left generalizing b with
  | zero => exact ⟨b, rfl, live⟩
  | succ left ih =>
    obtain ⟨r, run, onward⟩ := wired.jumpOn?_total live
    simp only [skipJumps, run, ok_bind]
    cases r with
    | none => exact ⟨b, rfl, live⟩
    | some next => exact ih (onward next rfl)

/-- A search for strings that meets no fault; each string that it finds leads to a block in use. -/
def Leads (g : Graph) (search : Checked (Option (List (String × BlockId)))) : Prop :=
  Gives search fun found => ∀ entry ∈ found, g.Live entry.2

theorem Leads.nothing (g : Graph) : g.Leads (.ok none) := Gives.nothing _

/-- Two searches in a row find what each of them finds. -/
theorem Leads.append {first second : Checked (Option (List (String × BlockId)))} (leads : g.Leads first)
    (others : g.Leads second) :
    g.Leads (do
      match ← first with
      | none => return none
      | some found =>
        match ← second with
        | some more => return some (found ++ more)
        | none => return none) := by
  obtain ⟨r, run, inUse⟩ := leads
  obtain ⟨r', run', inUse'⟩ := others
  simp only [run, ok_bind]
  cases r with
  | none => exact .nothing g
  | some found =>
    simp only [run', ok_bind]
    cases r' with
    | none => exact .nothing g
    | some more =>
      refine ⟨_, rfl, fun all same entry member => ?_⟩
      cases same
      rcases List.mem_append.mp member with early | later
      · exact inUse found rfl entry early
      · exact inUse' more rfl entry later

variable (wired : g.Wired) (reg : Nat) (fallbackEnd : BlockId) {table : CaseTable}

include wired

/-- By induction on the fuel: each test of a chain leads to the block of its string, or on to the next test. -/
theorem testChain?_leads (hash : Int) (fuel : Nat) (live : g.Live b) :
    g.Leads (g.testChain? reg hash fallbackEnd fuel b) := by
  induction fuel generalizing b with
  | zero => exact .nothing g
  | succ fuel ih =>
    have ⟨block, found, _⟩ := live
    simp only [testChain?, block_eq_ok.mpr found, ok_bind]
    split
    · exact .nothing g
    rename_i s relation _
    obtain ⟨yes, atTrue, liveTrue⟩ := wired.targetOf_live live .whenTrue
    obtain ⟨no, atFalse, liveFalse⟩ := wired.targetOf_live live .whenFalse
    simp only [trueSucc, atTrue, falseSucc, atFalse, ok_bind]
    split
    · rename_i matched other sides
      have both : g.Live matched ∧ g.Live other := by
        split at sides
        · cases sides
          exact ⟨liveFalse _ rfl, liveTrue _ rfl⟩
        · cases sides
          exact ⟨liveTrue _ rfl, liveFalse _ rfl⟩
      obtain ⟨last, arrives, _⟩ := wired.skipJumps_total g.liveCount both.2
      simp only [destination, arrives, ok_bind]
      split
      · refine ⟨_, rfl, fun all same entry member => ?_⟩
        cases same
        rw [List.mem_singleton.mp member]
        exact both.1
      · obtain ⟨r, run, inUse⟩ := ih both.2
        simp only [run, ok_bind]
        cases r with
        | none => exact .nothing g
        | some more =>
          refine ⟨_, rfl, fun all same entry member => ?_⟩
          cases same
          rcases List.mem_cons.mp member with rfl | later
          · exact both.1
          · exact inUse more rfl entry later
    · exact .nothing g

/-- Each label of a case stands for the strings at the end of its own chain of tests. -/
theorem labelStrings?_leads {target : BlockId} (live : g.Live target) (labels : List CaseLabel) :
    g.Leads (g.labelStrings? reg fallbackEnd target labels) := by
  induction labels with
  | nil => exact ⟨some [], rfl, fun _ same _ member => by cases same; cases member⟩
  | cons label rest ih =>
    cases label with
    | fallback => exact ih
    | int hash => exact (testChain?_leads wired reg fallbackEnd hash _ live).append ih
    | _ => exact .nothing g

/-- The search over all cases of a switch meets no fault. -/
theorem switchStrings?_leads {outs : List (EdgeId × Edge)} (live : ∀ out ∈ outs, g.Live out.2.target) :
    g.Leads (g.switchStrings? reg fallbackEnd outs) := by
  induction outs with
  | nil => exact ⟨some [], rfl, fun _ same _ member => by cases same; cases member⟩
  | cons out rest ih =>
    have others := ih fun out member => live out (.tail _ member)
    exact (labelStrings?_leads wired reg fallbackEnd (live out (.head _)) _).append others

omit wired

/-- Entering a case into the table brings in no block but its own target. -/
theorem addCase_live {pc : Nat} {target : BlockId} {label : CaseLabel} (live : g.Live target)
    (before : ∀ entry ∈ table, g.Live entry.2.1) : ∀ entry ∈ addCase pc target label table, g.Live entry.2.1 := by
  induction table with
  | nil =>
    intro entry member
    rw [List.mem_singleton.mp member]
    exact live
  | cons first rest ih =>
    obtain ⟨other, block, labels⟩ := first
    have here := before _ (.head _)
    have later := ih fun entry member => before entry (.tail _ member)
    intro entry member
    unfold addCase at member
    split at member
    · rcases List.mem_cons.mp member with rfl | old
      · exact live
      · exact before entry old
    · split at member
      · rcases List.mem_cons.mp member with rfl | old
        · exact here
        · exact before entry (.tail _ old)
      · rcases List.mem_cons.mp member with rfl | old
        · exact here
        · exact later entry old

/-- The table of a switch on strings can be set up if all strings lead to blocks in use. -/
theorem stringCases_total {strings : List (String × BlockId)} {fallback : BlockId}
    (live : ∀ entry ∈ strings, g.Live entry.2) (liveFallback : g.Live fallback) :
    ∃ table, g.stringCases strings fallback = .ok table ∧ ∀ entry ∈ table, g.Live entry.2.1 := by
  let holds (rest : List (String × BlockId)) (table : CaseTable) : Prop :=
    (∀ entry ∈ rest, g.Live entry.2) ∧ ∀ entry ∈ table, g.Live entry.2.1
  let add (table : CaseTable) (entry : String × BlockId) : Checked CaseTable := do
    return addCase (← g.block entry.2).pc entry.2 (.string entry.1) table
  obtain ⟨table, run, _, inUse⟩ := foldlM_total holds add strings [] ⟨live, nofun⟩ fun entry rest table before => by
    have here := before.1 entry (.head _)
    have ⟨block, found, _⟩ := here
    refine ⟨_, by simp only [add, block_eq_ok.mpr found, ok_bind]; rfl, ?_, addCase_live here before.2⟩
    exact fun other member => before.1 other (.tail _ member)
  have ⟨last, atLast, _⟩ := liveFallback
  refine ⟨addCase last.pc fallback .fallback table, ?_, addCase_live liveFallback inUse⟩
  change (strings.foldlM add [] >>= _) = _
  rw [run, ok_bind, block_eq_ok.mpr atLast]
  rfl

def withCases (g : Graph) (b : BlockId) (table : CaseTable) : Graph :=
  table.foldl (fun g entry => g.withEdge b entry.2.1 (.switchCase entry.2.2)) g

theorem withEdge_live_iff {source target : BlockId} (i : BlockId) :
    (g.withEdge source target kind).Live i ↔ g.Live i := by
  refine ⟨fun live => ?_, withEdge_live source target kind⟩
  obtain ⟨_, found, used⟩ := live
  rw [withEdge_block] at found
  obtain ⟨block, found', rfl⟩ := Option.map_eq_some_iff.mp found
  exact ⟨block, found', used⟩

theorem withCases_live (table : CaseTable) (i : BlockId) : (g.withCases b table).Live i ↔ g.Live i := by
  induction table generalizing g with
  | nil => rfl
  | cons entry rest ih => exact ih.trans (withEdge_live_iff i)

/-- Edges are only added, so the names of the old ones stay valid. -/
theorem withCases_edges_size (table : CaseTable) : g.edges.size ≤ (g.withCases b table).edges.size := by
  induction table generalizing g with
  | nil => exact Nat.le_refl _
  | cons entry rest ih =>
    have grown : (g.withEdge b entry.2.1 (.switchCase entry.2.2)).edges.size = g.edges.size + 1 := by simp [withEdge]
    have later := ih (g := g.withEdge b entry.2.1 (.switchCase entry.2.2))
    change _ ≤ ((g.withEdge b entry.2.1 (.switchCase entry.2.2)).withCases b rest).edges.size
    omega

theorem withCases_start (table : CaseTable) : (g.withCases b table).start = g.start := by
  induction table generalizing g with
  | nil => rfl
  | cons entry rest ih => exact ih

theorem withCases_size (table : CaseTable) : (g.withCases b table).blocks.size = g.blocks.size := by
  induction table generalizing g with
  | nil => rfl
  | cons entry rest ih => exact ih.trans (withEdge_size ..)

theorem contentOf_withCases (table : CaseTable) (i : BlockId) : (g.withCases b table).contentOf i = g.contentOf i := by
  induction table generalizing g with
  | nil => rfl
  | cons entry rest ih => exact ih.trans (contentOf_withEdge ..)

section WithCases

variable {table : CaseTable} (live : g.Live b) (targets : ∀ entry ∈ table, g.Live entry.2.1)

include live targets

/-- The edges for a table of cases are added one by one, and none of them meets a fault. -/
theorem addCases_eq :
    table.foldlM (fun g (_, target, labels) => do return (← g.addSwitchCase b target labels).2) g =
      .ok (g.withCases b table) := by
  induction table generalizing g with
  | nil => rfl
  | cons entry rest ih =>
    rw [List.foldlM_cons]
    simp only [addSwitchCase, addEdge_eq _ live.lt (targets entry (.head _)).lt, ok_bind]
    exact ih (withEdge_live _ _ _ live) fun other member =>
      withEdge_live _ _ _ (targets other (.tail _ member))

theorem Wired.withCases (wired : g.Wired) : (g.withCases b table).Wired := by
  induction table generalizing g with
  | nil => exact wired
  | cons entry rest ih =>
    exact ih (withEdge_live _ _ _ live) (fun other member =>
      withEdge_live _ _ _ (targets other (.tail _ member)))
      (wired.withEdge _ live (targets entry (.head _)))

/-- The new edges come behind the ones that the block had. -/
theorem Wired.kindsOf_withCases (wired : g.Wired) (i : BlockId) :
    (g.withCases b table).kindsOf i =
      if b = i then g.kindsOf i ++ table.map (fun entry => .switchCase entry.2.2) else g.kindsOf i := by
  induction table generalizing g with
  | nil => simp [Graph.withCases]
  | cons entry rest ih =>
    refine (ih (withEdge_live _ _ _ live) (fun other member =>
      withEdge_live _ _ _ (targets other (.tail _ member)))
      (wired.withEdge _ live (targets entry (.head _)))).trans ?_
    rw [wired.kindsOf_withEdge live.lt]
    split <;> simp

end WithCases

theorem Sturdy.withCases {table : CaseTable} (sturdy : Sturdy n g) (live : g.Live b)
    (targets : ∀ entry ∈ table, g.Live entry.2.1) : Sturdy n (g.withCases b table) :=
  ⟨sturdy.wired.withCases live targets, (withCases_size table).trans sturdy.size,
    (withCases_start table).symm ▸ sturdy.start⟩

/-- What becomes of a switch on hashes that is read as one on strings: the strings behind its labels are put into a table,
its edges make way for the cases of the table, and what is no longer reached is taken out. -/
def ReadsStrings (g : Graph) (b : BlockId) (reg : Nat) (g' : Graph) : Prop :=
  ∃ outs fallback fallbackEnd strings table dead, g.outs b = .ok outs ∧
    outs.find? (fun out => out.2.kind.isFallback) = some fallback ∧ g.destination fallback.2.target = .ok fallbackEnd ∧
    g.switchStrings? reg fallbackEnd (outs.filter fun out => out.2.kind.isSwitchCase) = .ok (some strings) ∧
    g.stringCases strings fallback.2.target = .ok table ∧ g.Live b ∧ (∀ entry ∈ table, g.Live entry.2.1) ∧
    g' = ((g.withCases b table).without
      ((outs.filter fun out => out.2.kind.isSwitchCase).map Prod.fst)).withoutBlocks dead ∧
    ∀ i, i ∈ dead ↔ g.Live i ∧ ¬ ((g.withCases b table).without
      ((outs.filter fun out => out.2.kind.isSwitchCase).map Prod.fst)).Reachable i

/-- A switch on hashes is either left alone or read as a whole; there is no fault in between. -/
theorem Wired.recoverStringSwitch_gives (wired : g.Wired) (start : g.start < g.size) (inside : b < g.blocks.size)
    (reg : Nat) : Gives (g.recoverStringSwitch b reg) (g.ReadsStrings b reg) := by
  obtain ⟨outs, leaving, joins⟩ := wired.leaving inside
  have ends (out : EdgeId × Edge) (member : out ∈ outs) : g.Live b ∧ g.Live out.2.target :=
    wired.ends_live _ _ _ (joins out member).2
  simp only [recoverStringSwitch, fallbackOut, leaving, ok_bind]
  cases chosen : outs.find? fun out => out.2.kind.isFallback with
  | none => exact .nothing _
  | some fallback =>
    obtain ⟨live, liveFallback⟩ := ends fallback (List.mem_of_find?_eq_some chosen)
    obtain ⟨last, arrives, _⟩ := wired.skipJumps_total g.liveCount liveFallback
    obtain ⟨r, searched, inUse⟩ := switchStrings?_leads wired reg last
      fun out (member : out ∈ outs.filter fun out => out.2.kind.isSwitchCase) =>
        (ends out (List.mem_filter.mp member).1).2
    simp only [pure_bind, destination, arrives, searched, ok_bind]
    split
    · exact .nothing _
    · exact .nothing _
    rename_i strings _
    obtain ⟨table, tabled, targets⟩ := stringCases_total (inUse strings rfl) liveFallback
    have wired' := wired.withCases live targets
    have gone (e : EdgeId) (member : e ∈ (outs.filter fun out => out.2.kind.isSwitchCase).map Prod.fst) :
        e < (g.withCases b table).edges.size := by
      obtain ⟨out, kept, rfl⟩ := List.mem_map.mp member
      exact Nat.lt_of_lt_of_le (joins out (List.mem_filter.mp kept).1).2.lt (withCases_edges_size table)
    obtain ⟨dead, removed, unreached⟩ := (wired'.without _).removeUnreachable_eq (by
      simpa [Graph.size, Graph.without, withCases_size, withCases_start] using start)
    refine .found ?_ ⟨outs, fallback, last, strings, table, dead, leaving, chosen, arrives, searched, tabled, live,
      targets, rfl, fun i => by rw [unreached, without_live, withCases_live]⟩
    simp only [tabled, ok_bind]
    rw [addCases_eq live targets, ok_bind, wired'.removeEdges_eq gone, ok_bind, removed]
    rfl

theorem lt_of_outs {outs : List (EdgeId × Edge)} (run : g.outs b = .ok outs) : b < g.blocks.size := by
  obtain ⟨_, found, _⟩ := bind_eq_ok.mp run
  exact lt_of_block found

theorem Wired.recoverStringSwitch_some (wired : g.Wired) (start : g.start < g.size) {reg : Nat}
    (run : g.recoverStringSwitch b reg = .ok (some g')) : g.ReadsStrings b reg g' := by
  obtain ⟨_, atFallback, _⟩ := bind_eq_ok.mp run
  obtain ⟨_, leaving, _⟩ := bind_eq_ok.mp atFallback
  exact (wired.recoverStringSwitch_gives start (lt_of_outs leaving) reg).of_run run

/-- Reading a switch as one on strings leaves no name without a meaning. -/
theorem ReadsStrings.sturdy {reg : Nat} (reads : g.ReadsStrings b reg g') (sturdy : Sturdy n g) : Sturdy n g' := by
  obtain ⟨_, _, _, _, _, dead, _, _, _, _, _, live, targets, rfl, _⟩ := reads
  exact ((sturdy.withCases live targets).without _).withoutBlocks dead

theorem Sturdy.recoverStringSwitch (sturdy : Sturdy n g) (inside : b < n) (reg : Nat) :
    Gives (g.recoverStringSwitch b reg) (Sturdy n) :=
  (sturdy.wired.recoverStringSwitch_gives (sturdy.lt sturdy.start) (sturdy.lt inside) reg).imp
    fun _ reads => reads.sturdy sturdy

/-- Only labels of switches differ. -/
structure Relabelled (g g' : Graph) : Prop where
  rest : g' = { g with edges := g'.edges }
  edges (e : EdgeId) : g'.edges[e]?.map (fun edge => { edge with kind := edge.kind.plain }) =
    g.edges[e]?.map fun edge => { edge with kind := edge.kind.plain }

/-- Naming the labels of one more edge changes nothing but labels. -/
theorem Relabelled.named (labelled : Relabelled g g') (e : EdgeId) (names : List (Int × String)) :
    Relabelled g { g' with edges := g'.edges.modify e fun edge => { edge with kind := edge.kind.named names } } := by
  refine ⟨by rw [labelled.rest], fun i => ?_⟩
  rw [← labelled.edges i]
  simp only [Array.getElem?_modify]
  split
  · rw [Option.map_map]
    refine congrArg (Option.map · _) (funext fun edge => ?_)
    simp [EdgeKind.plain_named]
  · rfl

/-- New labels leave the edges where they are, so all names keep their meaning. -/
theorem Relabelled.sturdy (labelled : Relabelled g g') (sturdy : Sturdy n g) : Sturdy n g' := by
  have same : g' = { g with edges := g'.edges } := labelled.rest
  have blocks : g'.blocks = g.blocks := by rw [same]
  refine ⟨sturdy.wired.congr (fun i => ?_) (fun i => ?_) (fun e source target => ?_) (fun i live => ?_), ?_, ?_⟩
  · simp only [outsOf, blocks]
  · simp only [insOf, blocks]
  · refine SameEnds.joins_iff (fun e => ?_) e source target
    have agree := congrArg (Option.map fun edge : Edge => (edge.source, edge.target, edge.removed)) (labelled.edges e)
    simpa only [Option.map_map, Function.comp_def] using agree
  · simpa only [Live, blocks] using live
  · rw [blocks, sturdy.size]
  · rw [same]
    exact sturdy.start

section EnumSwitch

variable {switch : EnumSwitch} {enumType : JavaType} {facts : ClassFacts}

/-- A switch on the ordinals of an enum is either left alone or gets new labels. -/
theorem Wired.recoverEnumSwitch_gives (wired : g.Wired) (inside : b < g.blocks.size) :
    Gives (g.recoverEnumSwitch b switch enumType facts) (Relabelled g) := by
  obtain ⟨outs, leaving, joins⟩ := wired.leaving inside
  unfold recoverEnumSwitch
  split
  · exact .nothing _
  rename_i names _
  simp only [leaving, ok_bind]
  split
  · let holds (rest : List (EdgeId × Edge)) (g' : Graph) : Prop :=
      (∀ out ∈ rest, out.1 < g'.edges.size) ∧ Relabelled g g'
    obtain ⟨g', run, _, labelled⟩ := foldlM_total holds
      (fun g (out : EdgeId × Edge) => g.modifyEdge out.1 fun edge => { edge with kind := edge.kind.named names })
      (outs.filter fun out => out.2.kind.isSwitchCase) g
      ⟨fun out member => (joins out (List.mem_filter.mp member).1).2.lt, rfl, fun _ => rfl⟩ fun out rest g' before => by
        refine ⟨_, modifyEdge_eq (before.1 out (.head _)) _, fun other member => ?_, before.2.named out.1 names⟩
        rw [Array.size_modify]
        exact before.1 other (.tail _ member)
    exact .found (by rw [run]; rfl) labelled
  · exact .nothing _

theorem Wired.recoverEnumSwitch_some (wired : g.Wired)
    (run : g.recoverEnumSwitch b switch enumType facts = .ok (some g')) : Relabelled g g' := by
  have inside : b < g.blocks.size := by
    unfold recoverEnumSwitch at run
    split at run
    · cases run
    · obtain ⟨_, leaving, _⟩ := bind_eq_ok.mp run
      exact lt_of_outs leaving
  exact (wired.recoverEnumSwitch_gives inside).of_run run

theorem Sturdy.recoverEnumSwitch (sturdy : Sturdy n g) (inside : b < n) (switch : EnumSwitch) (enumType : JavaType)
    (facts : ClassFacts) : Gives (g.recoverEnumSwitch b switch enumType facts) (Sturdy n) :=
  (sturdy.wired.recoverEnumSwitch_gives (sturdy.lt inside)).imp fun _ labelled => labelled.sturdy sturdy

end EnumSwitch

end Graph

end Unstack
