import Mathlib.Data.List.Flatten
import Unstack.Proofs.Recovery.Rewiring
import Unstack.Proofs.Recovery.Turn

namespace Unstack

/-- The edge leaves the head of a switch and has the label for the target. -/
def Edge.bears (edge : Edge) (head : BlockId) (label : CaseLabel) (target : BlockId) : Bool :=
  edge.removed = false ∧ edge.source = head ∧ edge.target = target ∧ label ∈ edge.kind.labels

namespace Graph

variable {g g' : Graph} {head b t fallback : BlockId} {outs : List (EdgeId × Edge)} {reg : Nat} {hash : Int}
  {relation : Relation} {label : CaseLabel}

/-- A switch on the hashes of strings: its keys differ, the blocks that it tests strings in do nothing else, and no literal
is tested at two of them for the same hash. -/
structure HashSwitch (g : Graph) (reg : Nat) (head fallback : BlockId) : Prop where
  otherwise : ∃ e edge, g.fallbackOut head = .ok (some (e, edge)) ∧ edge.target = fallback
  distinct : ((g.kindsOf head).flatMap EdgeKind.keys).Nodup
  tests : g.TestsStrings reg head fallback
  once (hash : Int) (b c : BlockId) (s : String) (relation relation' : Relation) : g.Visited reg head fallback hash b →
    g.Visited reg head fallback hash c → g.Compares reg b s relation → g.Compares reg c s relation' → b = c

/-- A string is led to the same end by the switch on hashes and by the switch on strings, and each literal that is tested
stands at one edge of the latter. -/
structure KeepsDispatch (g g' : Graph) (reg : Nat) (head fallback : BlockId) : Prop where
  dispatches (v : String) : ∃ t, g.Dispatches reg head fallback v t
  selects (v : String) : ∃ t, g'.Selects head v t
  same (v : String) (t t' : BlockId) : g.Dispatches reg head fallback v t → g'.Selects head v t' → g.SameEnd g' t t'
  once (hash : Int) (b : BlockId) (s : String) (relation : Relation) : g.Visited reg head fallback hash b →
    g.Compares reg b s relation → ∃! e, ∃ t, g'.Bears e head (.string s) t

/-- The switch leads to the block, for one of the literals or when no label fits. -/
def LeadsTo (g : Graph) (reg : Nat) (head fallback t : BlockId) : Prop :=
  t = fallback ∨ ∃ hash b s relation, g.Visited reg head fallback hash b ∧ g.Compares reg b s relation ∧
    g.Answers relation b true t

theorem Wired.labels_iff (wired : g.Wired) (live : g.Live head)
    (leaving : g.outs head = .ok outs) (label : CaseLabel) (t : BlockId) :
    g.Labels head label t ↔ ∃ out ∈ outs, out.2.target = t ∧ label ∈ out.2.kind.labels := by
  obtain ⟨front, atHead, _⟩ := live
  simp only [Labels, Bears, Prod.exists, wired.mem_outs_iff atHead leaving]
  constructor
  · rintro ⟨e, ⟨edge, atEdge, used, source, target⟩, _, atEdge', member⟩
    cases atEdge.some_unique atEdge'
    exact ⟨e, edge, ⟨atEdge, used, source⟩, target, member⟩
  · rintro ⟨e, edge, ⟨atEdge, used, source⟩, target, member⟩
    exact ⟨e, ⟨edge, atEdge, used, source, target⟩, edge, atEdge, member⟩

/-- The keys of a switch, each with the block that it leads to. -/
def keyed (outs : List (EdgeId × Edge)) : List (Int × BlockId) :=
  (outs.filter fun out => out.2.kind.isSwitchCase).flatMap fun out => out.2.kind.keys.map (·, out.2.target)

theorem mem_keyed {key : Int} :
    (key, t) ∈ keyed outs ↔ ∃ out ∈ outs, out.2.target = t ∧ .int key ∈ out.2.kind.labels := by
  have mem_keys (kind : EdgeKind) : key ∈ kind.keys ↔ .int key ∈ kind.labels := by
    simp only [EdgeKind.keys, List.mem_filterMap]
    constructor
    · rintro ⟨label, member, isKey⟩
      cases label <;> cases isKey
      exact member
    · exact fun member => ⟨_, member, rfl⟩
  simp only [keyed, List.mem_flatMap, List.mem_filter, List.mem_map, Prod.mk.injEq]
  constructor
  · rintro ⟨out, ⟨member, _⟩, key', among, rfl, rfl⟩
    exact ⟨out, member, rfl, (mem_keys _).mp among⟩
  · rintro ⟨out, member, rfl, among⟩
    exact ⟨out, ⟨member, isSwitchCase_of_label among⟩, key, (mem_keys _).mpr among, rfl, rfl⟩

theorem nodup_keyed (distinct : (outs.flatMap fun out => out.2.kind.keys).Nodup) :
    ((keyed outs).map Prod.fst).Nodup := by
  have same : (keyed outs).map Prod.fst =
      (outs.filter fun out => out.2.kind.isSwitchCase).flatMap fun out => out.2.kind.keys := by
    simp [keyed, List.map_flatMap, Function.comp_def]
  rw [same]
  exact distinct.sublist (List.filter_sublist.flatMap _)

theorem Visited.chain {strings : List (String × BlockId)}
    (complete : ∀ key t, g.Labels head (.int key) t → ∃ part, g.Chain reg fallback t part ∧ part ⊆ strings)
    (visited : g.Visited reg head fallback hash b) : ∃ part, g.Chain reg fallback b part ∧ part ⊆ strings := by
  induction visited with
  | label labelled => exact complete hash _ labelled
  | onward _ compares no apart ih =>
    obtain ⟨part, chain, inside⟩ := ih
    cases chain with
    | last compares' _ no' ends =>
      obtain ⟨rfl, rfl⟩ := compares.unique compares'
      exact absurd (no'.unique no ▸ ends) apart
    | cons compares' _ no' _ rest =>
      obtain ⟨rfl, rfl⟩ := compares.unique compares'
      obtain rfl := no.unique no'
      exact ⟨_, rest, List.subset_of_cons_subset inside⟩

/-- A switch on hashes has made way for one on these strings, each with its target. -/
structure Replaced (g g' : Graph) (reg : Nat) (head fallback : BlockId) (strings : List (String × BlockId)) : Prop where
  distinct : (strings.map Prod.fst).Nodup
  complete (key : Int) (b : BlockId) : g.Labels head (.int key) b → ∃ part, g.Chain reg fallback b part ∧ part ⊆ strings
  sound (v : String) (t : BlockId) : (v, t) ∈ strings → ∃ b, g.Labels head (.int (Text.stringHash v)) b
  within (v : String) (t b : BlockId) (part : List (String × BlockId)) : (v, t) ∈ strings →
    g.Labels head (.int (Text.stringHash v)) b → g.Chain reg fallback b part → (v, t) ∈ part
  labels (v : String) (t : BlockId) : g'.Labels head (.string v) t ↔ (v, t) ∈ strings
  otherwise (t : BlockId) : g'.Labels head .fallback t ↔ t = fallback
  single (label : CaseLabel) (e e' : EdgeId) (t t' : BlockId) : g'.Bears e head label t → g'.Bears e' head label t' → e = e'
  sameEnd (label : CaseLabel) (a b c : BlockId) : g'.Labels head label b → g.Skips a c → g.Skips b c → g.SameEnd g' a b

theorem fallback_mem_labels {kind : EdgeKind} (falls : kind.isFallback = true) : .fallback ∈ kind.labels := by
  cases kind with
  | switchCase labels => exact List.contains_iff_mem.mp falls
  | _ => cases falls

/-- Where a search for strings succeeds, its result replaces the switch. -/
theorem Wired.recoverStringSwitch_replaced (wired : g.Wired) (run : g.recoverStringSwitch head reg = .ok (some g'))
    (switch : g.HashSwitch reg head fallback) (reached : g.Reachable head)
    (apart : g.Apart (g.LeadsTo reg head fallback)) :
    (∃ last, g.destination fallback = .ok last) ∧ ∃ strings, g.Replaced g' reg head fallback strings := by
  obtain ⟨e, edge, picked, rfl⟩ := switch.otherwise
  have inside : g.start < g.size := by
    rcases Relation.ReflTransGen.cases_head reached with same | ⟨_, ⟨_, joins⟩, _⟩
    · obtain ⟨_, leaving, _⟩ := bind_eq_ok.mp picked
      obtain ⟨_, found, _⟩ := bind_eq_ok.mp leaving
      exact same ▸ lt_of_block found
    · exact (wired.ends_live _ _ _ joins).1.lt
  obtain ⟨outs, out, last, strings, table, dead, leaving, chosen, arrives, searched, tabled, live, targets, made,
    unreached⟩ := wired.recoverStringSwitch_some inside run
  obtain rfl : out = (e, edge) := by
    rw [fallbackOut, leaving, ok_bind, chosen] at picked
    exact Option.some.inj (Except.ok.inj picked)
  have rewired : g.Rewired g' head table := by
    rw [made]
    exact wired.rewired live leaving reached targets fun i lost => ((unreached i).mp lost).2
  have labelled := wired.labels_iff live leaving
  have reads := switchStrings?_reads switch.tests switch.once arrives (fun out member key among =>
    (labelled _ _).mpr ⟨out, (List.mem_filter.mp member).1, rfl, among⟩) searched
  change g.Reads reg edge.target (keyed outs) strings at reads
  have keys (key : Int) (b : BlockId) : (key, b) ∈ keyed outs ↔ g.Labels head (.int key) b :=
    mem_keyed.trans (labelled _ _).symm
  have distinct : ((keyed outs).map Prod.fst).Nodup := by
    refine nodup_keyed ?_
    have all := switch.distinct
    rwa [kindsOf_eq_map leaving, List.flatMap_map] at all
  have once := reads.once distinct
  have leads (entry : String × BlockId) (member : entry ∈ strings) : g.LeadsTo reg head edge.target entry.2 := by
    obtain ⟨key, among, _, part, chain, inside⟩ := reads.sound entry member
    have comes : g.Visited reg head edge.target key.1 key.2 := .label ((keys _ _).mp among)
    obtain ⟨c, relation, _, comes', compares, yes, _⟩ := chain.visited comes inside
    exact .inr ⟨key.1, c, entry.1, relation, comes', compares, yes⟩
  have cases := stringCases_tabled apart leads (.inl rfl) tabled
  have falls := List.find?_some chosen
  have standsAt : g.Labels head .fallback edge.target :=
    (labelled _ _).mpr ⟨_, List.mem_of_find?_eq_some chosen, rfl, fallback_mem_labels falls⟩
  have offered := (cases.offers .fallback edge.target).mpr (fallback_mem_newCases.mpr rfl)
  refine ⟨⟨last, arrives⟩, strings, once, fun key b labelledBy => reads.complete (key, b) ((keys key b).mpr labelledBy),
    fun v t member => ?_, fun v t b part member labelledBy chain => ?_, fun v t => ?_, fun t => ?_,
    fun label e e' t t' bears bears' => ?_, fun label a b c selected first second => ?_⟩
  · obtain ⟨key, among, hashed, _⟩ := reads.sound _ member
    exact ⟨key.2, (keys _ _).mp (hashed ▸ among)⟩
  · exact reads.key_of_mem distinct member ((keys _ _).mpr labelledBy) chain
  · rw [rewired.labels_iff, cases.offers, string_mem_newCases]
  · rw [rewired.labels_iff, cases.offers, fallback_mem_newCases]
  · obtain ⟨i, entry, rfl, atEntry, _, member⟩ := (rewired.bears _ _ _).mp bears
    obtain ⟨j, entry', rfl, atEntry', _, member'⟩ := (rewired.bears _ _ _).mp bears'
    have nodup := cases.labels.nodup_iff.mpr (nodup_newCases once edge.target)
    rw [eq_of_label nodup atEntry atEntry' member member']
  · obtain ⟨e', joins, _⟩ := selected
    exact rewired.sameEnd standsAt offered (rewired.reached.tail ⟨e', joins⟩) first second

namespace Replaced

variable {reg : Nat} {fallback : BlockId} {strings : List (String × BlockId)}
  (replaced : g.Replaced g' reg head fallback strings)

include replaced

theorem dispatches (v : String) : ∃ t, g.Dispatches reg head fallback v t := by
  by_cases key : ∃ b, g.Labels head (.int (Text.stringHash v)) b
  · obtain ⟨b, labelled⟩ := key
    obtain ⟨part, chain, _⟩ := replaced.complete _ b labelled
    obtain ⟨t, follows⟩ := chain.follows v
    exact ⟨t, .inl ⟨b, labelled, follows⟩⟩
  · exact ⟨fallback, .inr ⟨not_exists.mp key, rfl⟩⟩

/-- Every string selects a case or the fallback. -/
theorem selects (v : String) : ∃ t, g'.Selects head v t := by
  by_cases known : ∃ t, g'.Labels head (.string v) t
  · obtain ⟨t, labelled⟩ := known
    exact ⟨t, .inl labelled⟩
  · exact ⟨fallback, .inr ⟨not_exists.mp known, (replaced.otherwise fallback).mpr rfl⟩⟩

theorem fallback_of_not_mem {v : String} (none : ∀ t, (v, t) ∉ strings) (selects : g'.Selects head v t) :
    t = fallback ∧ g'.Labels head .fallback t := by
  rcases selects with labelled | ⟨_, otherwise⟩
  · exact absurd ((replaced.labels v t).mp labelled) (none t)
  · exact ⟨(replaced.otherwise t).mp otherwise, otherwise⟩

/-- A string is sent to where its tests led it. -/
theorem same (wired : g.Wired) {last : BlockId} (arrives : g.destination fallback = .ok last) {v : String}
    {t' : BlockId} (dispatches : g.Dispatches reg head fallback v t) (selects : g'.Selects head v t') :
    g.SameEnd g' t t' := by
  rcases dispatches with ⟨b, labelled, follows⟩ | ⟨noKey, rfl⟩
  · obtain ⟨part, chain, inside⟩ := replaced.complete _ b labelled
    rcases chain.of_follows follows with hit | ⟨miss, ends⟩
    · have member := inside hit
      rcases selects with selected | ⟨none, _⟩
      · have one : (v, t) = (v, t') :=
          List.inj_on_of_nodup_map replaced.distinct member ((replaced.labels v t').mp selected) rfl
        obtain rfl := (Prod.mk.inj one).2
        exact replaced.sameEnd _ t t t selected .refl .refl
      · exact absurd ((replaced.labels v t).mpr member) (none t)
    · have none (c : BlockId) : (v, c) ∉ strings := fun member =>
        miss (List.mem_map_of_mem (replaced.within v c b part member labelled chain))
      obtain ⟨rfl, selected⟩ := replaced.fallback_of_not_mem none selects
      exact replaced.sameEnd _ t t' last selected (wired.skips_of_skipJumps (ends.trans arrives))
        (wired.skips_of_skipJumps arrives)
  · have none (c : BlockId) : (v, c) ∉ strings := fun member => by
      obtain ⟨b, labelled⟩ := replaced.sound v c member
      exact noKey b labelled
    obtain ⟨rfl, selected⟩ := replaced.fallback_of_not_mem none selects
    exact replaced.sameEnd _ t' t' t' selected .refl .refl

theorem once {s : String} (visited : g.Visited reg head fallback hash b) (compares : g.Compares reg b s relation) :
    ∃! e, ∃ t, g'.Bears e head (.string s) t := by
  obtain ⟨part, chain, inside⟩ := visited.chain replaced.complete
  obtain ⟨t, member⟩ : ∃ t, (s, t) ∈ part := by
    cases chain with
    | last compares' | cons compares' =>
      obtain ⟨rfl, rfl⟩ := compares.unique compares'
      exact ⟨_, .head _⟩
  obtain ⟨e, bears⟩ := (replaced.labels s t).mpr (inside member)
  refine ⟨e, ⟨t, bears⟩, fun e' other => ?_⟩
  obtain ⟨t', bears'⟩ := other
  exact replaced.single _ e' e t' t bears' bears

end Replaced

/-- What a block compares the string in the register with, if it does nothing else. -/
def comparisonAt? (g : Graph) (reg : Nat) (b : BlockId) : Option (String × Relation) :=
  g.blocks[b]?.bind fun block => comparison? reg block.ops

/-- Where a block that compares strings goes for an answer. -/
def answer? (g : Graph) (relation : Relation) (b : BlockId) (equal : Bool) : Option BlockId :=
  (g.targetOf (if relation.holdsOf equal.toInt then .whenTrue else .whenFalse) b).toOption.join

def nextTest? (g : Graph) (reg : Nat) (fallback b : BlockId) : Option BlockId := do
  let (_, relation) ← g.comparisonAt? reg b
  let next ← g.answer? relation b false
  if g.destination next = g.destination fallback then none else some next

/-- The blocks that a switch leads to, if these are its tests. -/
def targetsOf (g : Graph) (reg : Nat) (fallback : BlockId) (tests : List (Int × BlockId)) : List BlockId :=
  fallback :: tests.filterMap fun test => do g.answer? (← g.comparisonAt? reg test.2).2 test.2 true

/-- A check that different blocks of a list start at different indices. -/
def startApart (g : Graph) (targets : List BlockId) : Bool :=
  targets.all fun a => targets.all fun b => g.blocks[a]?.map Block.pc = g.blocks[b]?.map Block.pc → a = b

/-- A check that the tests of a switch are among those listed, that each of them asks whether the answer is zero, and that
they are about different literals. -/
def testsAre (g : Graph) (reg : Nat) (head fallback : BlockId) (tests : List (Int × BlockId)) : Bool :=
  ((g.fallbackOut head).toOption.any fun out => out.any fun out => out.2.target = fallback) &&
  ((g.outs head).toOption.any fun outs => decide (outs.flatMap fun out => out.2.kind.keys).Nodup &&
    (keyed outs).all (· ∈ tests)) &&
  (tests.all fun test => (g.nextTest? reg fallback test.2).all fun next => (test.1, next) ∈ tests) &&
  (tests.all fun test => (g.comparisonAt? reg test.2).any fun c => c.2 = .eq ∨ c.2 = .ne) &&
  tests.all fun test => tests.all fun other => test.1 = other.1 →
    (g.comparisonAt? reg test.2).map Prod.fst = (g.comparisonAt? reg other.2).map Prod.fst → test.2 = other.2

theorem compares_iff {s : String} : g.Compares reg b s relation ↔ g.comparisonAt? reg b = some (s, relation) := by
  simp [Compares, comparisonAt?, Option.bind_eq_some_iff]

theorem answers_iff {equal : Bool} {next : BlockId} :
    g.Answers relation b equal next ↔ g.answer? relation b equal = some next := by
  rw [Answers, answer?]
  cases g.targetOf (if relation.holdsOf equal.toInt then .whenTrue else .whenFalse) b with
  | error => simp [Except.toOption]
  | ok target => cases target <;> simp [Except.toOption]

section Tests

variable {reg : Nat} {fallback : BlockId} {tests : List (Int × BlockId)} (wired : g.Wired)
  (are : g.testsAre reg head fallback tests = true)

include wired are

theorem Visited.mem_tests (visited : g.Visited reg head fallback hash b) : (hash, b) ∈ tests := by
  simp only [testsAre, Bool.and_eq_true, List.all_eq_true] at are
  obtain ⟨⟨⟨⟨_, listed⟩, closed⟩, _⟩, _⟩ := are
  obtain ⟨outs, leaving, listed⟩ := of_any_toOption listed
  rw [Bool.and_eq_true, List.all_eq_true] at listed
  induction visited with
  | label labelled =>
    obtain ⟨e, joins, _⟩ := labelled
    have labels := wired.labels_iff (wired.ends_live _ _ _ joins).1 leaving
    exact of_decide_eq_true (listed.2 _ (mem_keyed.mpr ((labels _ _).mp ⟨e, joins, ‹_›⟩)))
  | @onward b next _ _ _ compares no apart ih =>
    have goesOn : g.nextTest? reg fallback b = some next := by
      simp [nextTest?, compares_iff.mp compares, answers_iff.mp no, apart]
    have inside := closed _ ih
    rw [goesOn] at inside
    exact of_decide_eq_true inside

/-- What a finite check has found is a switch on hashes. -/
theorem hashSwitch_of_testsAre : g.HashSwitch reg head fallback := by
  have mem {hash : Int} {b : BlockId} (visited : g.Visited reg head fallback hash b) := visited.mem_tests wired are
  simp only [testsAre, Bool.and_eq_true, List.all_eq_true] at are
  obtain ⟨⟨⟨⟨otherwise, listed⟩, _⟩, order⟩, once⟩ := are
  obtain ⟨outs, leaving, listed⟩ := of_any_toOption listed
  obtain ⟨out, picked, target⟩ := of_any_toOption otherwise
  obtain ⟨out, rfl, target⟩ := (Option.any_eq_true _ _).mp target
  refine ⟨⟨out.1, out.2, picked, of_decide_eq_true target⟩, ?_, fun hash b visited => ?_,
    fun hash b c s relation relation' visited visited' compares compares' => ?_⟩
  · rw [kindsOf_eq_map leaving, List.flatMap_map]
    exact of_decide_eq_true (Bool.and_eq_true _ _ ▸ listed).1
  · obtain ⟨c, compares, asks⟩ := (Option.any_eq_true _ _).mp (order _ (mem visited))
    exact ⟨c.1, c.2, compares_iff.mpr compares, of_decide_eq_true asks⟩
  · refine of_decide_eq_true (once _ (mem visited) _ (mem visited')) rfl ?_
    rw [compares_iff.mp compares, compares_iff.mp compares']
    rfl

theorem LeadsTo.mem_targets (leads : g.LeadsTo reg head fallback t) : t ∈ g.targetsOf reg fallback tests := by
  rcases leads with rfl | ⟨hash, b, s, relation, visited, compares, yes⟩
  · exact .head _
  · refine .tail _ (List.mem_filterMap.mpr ⟨(hash, b), visited.mem_tests wired are, ?_⟩)
    simp [compares_iff.mp compares, answers_iff.mp yes]

theorem apart_of_testsAre (places : g.startApart (g.targetsOf reg fallback tests) = true) :
    g.Apart (g.LeadsTo reg head fallback) := by
  intro a b leads leads' same
  have all := List.all_eq_true.mp (List.all_eq_true.mp places a (leads.mem_targets wired are)) b
  exact of_decide_eq_true (all (leads'.mem_targets wired are)) same

end Tests

theorem labels_of_bears {e : EdgeId} (bears : g.edges[e]?.any fun edge => edge.bears head label t) :
    g.Labels head label t := by
  obtain ⟨edge, atEdge, fits⟩ := (Option.any_eq_true _ _).mp bears
  obtain ⟨used, source, target, member⟩ := of_decide_eq_true fits
  exact ⟨e, ⟨edge, atEdge, used, source, target⟩, edge, atEdge, member⟩

def isLeaf (g : Graph) (b : BlockId) : Bool := g.edges.all fun edge => edge.removed || edge.source != b

theorem not_joins_of_isLeaf (leaf : g.isLeaf b = true) {e : EdgeId} : ¬ g.Joins e b t := by
  rintro ⟨edge, atEdge, used, source, _⟩
  have apart := Array.all_eq_true_iff_forall_mem.mp leaf edge (Array.mem_of_getElem? atEdge)
  simp [used, source] at apart

theorem not_jumpsOn_of_isLeaf (leaf : g.isLeaf b = true) {next : BlockId} : ¬ g.JumpsOn b next := by
  rintro ⟨_, e, joins, _⟩
  exact not_joins_of_isLeaf leaf joins

theorem not_labels_of_isLeaf (leaf : g.isLeaf b = true) : ¬ g.Labels b label t := by
  rintro ⟨e, joins, _⟩
  exact not_joins_of_isLeaf leaf joins

/-- Operations that compare the string in the first register with a literal. -/
def comparing (s : String) (relation : Relation) : List Operation :=
  [⟨0, 0, -1, .load .string 0⟩, ⟨1, 0, -1, .push .string (.string s)⟩,
    ⟨2, 0, -1, .invoke ⟨.string, "equals", [.anyObject], .boolean, default⟩ false⟩,
    ⟨3, 0, -1, .jumpZero .boolean relation 0⟩]

/-- A graph made by edits, with blocks that compare strings. -/
def drawn (edits : List Edit) (tests : List (BlockId × String × Relation)) : Checked Graph := do
  let g ← Edit.run (Graph.empty (MethodInfo.plain "drawn" 1 2) (comparing "" .eq)) edits
  return tests.foldl (fun g test => g.altered test.1 (Block.withOps (comparing test.2.1 test.2.2))) g

theorem drawn_wired {edits : List Edit} {tests : List (BlockId × String × Relation)}
    (fit : Edit.AllFit (Graph.empty (MethodInfo.plain "drawn" 1 2) (comparing "" .eq)) edits)
    (run : drawn edits tests = .ok g) : g.Wired := by
  obtain ⟨g₀, edited, made⟩ := bind_eq_ok.mp run
  obtain ⟨_, edited', wired⟩ := fit.wired (Graph.empty_wired _ _)
  cases edited.ok_unique edited'
  cases made
  clear edited edited' run
  induction tests generalizing g₀ with
  | nil => exact wired
  | cons test rest ih => exact ih _ (altered_wired wired test.1 (Block.keepsWiring_withOps _))

/-- Reading a switch on hashes as one on strings keeps where each string is led, if the head is reached from the start and
targets that start at the same index are the same. -/
theorem recoverStringSwitch_keepsDispatch {reg : Nat} {fallback : BlockId} (wired : g.Wired)
    (run : g.recoverStringSwitch head reg = .ok (some g')) (switch : g.HashSwitch reg head fallback)
    (reached : g.Reachable head) (apart : g.Apart (g.LeadsTo reg head fallback)) :
    g.KeepsDispatch g' reg head fallback := by
  obtain ⟨⟨last, arrives⟩, strings, replaced⟩ := wired.recoverStringSwitch_replaced run switch reached apart
  exact ⟨replaced.dispatches, replaced.selects, fun _ _ _ => replaced.same wired arrives,
    fun _ _ _ _ visited compares => replaced.once visited compares⟩

/-- Two strings with the same hash, whose tests jump in different ways, and a way to the fallback through a block that only
jumps on. -/
def colliding : Checked Graph :=
  drawn [.newBlock 0, .newBlock 3, .newBlock 7, .newBlock 11, .newBlock 13, .newBlock 14, .newBlock 18, .newBlock 19,
    .addSwitchCase 0 1 [.int 2112], .addSwitchCase 0 5 [.int 99], .addSwitchCase 0 7 [.fallback], .setConds 1 6 2,
    .setConds 2 4 3, .setSucc 4 7, .setConds 5 7 6] [(1, "Aa", .ne), (2, "BB", .eq), (5, "c", .eq)]

theorem recoverStringSwitch_keepsDispatch_colliding : ∃ g g', colliding = .ok g ∧ g.Wired ∧
    g.recoverStringSwitch 0 0 = .ok (some g') ∧ g.HashSwitch 0 0 7 ∧ g.Reachable 0 ∧ g.Apart (g.LeadsTo 0 0 7) ∧
    g.KeepsDispatch g' 0 0 7 ∧ g'.kindsOf 0 = [.switchCase [.string "BB"], .switchCase [.string "Aa", .string "c"],
      .switchCase [.fallback]] := by
  have shaped : colliding.toOption.any fun g => g.start = 0 ∧ g.testsAre 0 0 7 [(2112, 1), (2112, 2), (99, 5)] ∧
      g.startApart (g.targetsOf 0 7 [(2112, 1), (2112, 2), (99, 5)]) ∧
      (g.recoverStringSwitch 0 0).toOption.any fun r => r.any fun g' => g'.kindsOf 0 =
        [.switchCase [.string "BB"], .switchCase [.string "Aa", .string "c"], .switchCase [.fallback]] := by
    decide +kernel
  obtain ⟨g, built, shaped⟩ := of_any_toOption shaped
  obtain ⟨start, are, places, recovered⟩ := of_decide_eq_true shaped
  obtain ⟨r, run, recovered⟩ := of_any_toOption recovered
  obtain ⟨g', rfl, kinds⟩ := (Option.any_eq_true _ _).mp recovered
  have wired := drawn_wired (by decide +kernel) built
  have switch := hashSwitch_of_testsAre wired are
  have reached : g.Reachable 0 := by
    rw [← start]
    exact .refl
  have apart := apart_of_testsAre wired are places
  exact ⟨g, g', built, wired, run, switch, reached, apart, recoverStringSwitch_keepsDispatch wired run switch reached apart,
    of_decide_eq_true kinds⟩

/-- The strings of two labels lead to different blocks that start at the same index. -/
def shared : Checked Graph :=
  drawn [.newBlock 0, .newBlock 1, .newBlock 5, .newBlock 9, .newBlock 9, .newBlock 10, .addSwitchCase 0 1 [.int 97],
    .addSwitchCase 0 2 [.int 98], .addSwitchCase 0 5 [.fallback], .setConds 1 3 5, .setConds 2 4 5]
    [(1, "a", .ne), (2, "b", .ne)]

/-- A switch that the start does not reach. -/
def unreached : Checked Graph :=
  drawn [.newBlock 0, .newBlock 1, .newBlock 2, .newBlock 6, .newBlock 7, .addSwitchCase 1 2 [.int 97],
    .addSwitchCase 1 4 [.fallback], .setConds 2 3 4] [(2, "a", .ne)]

/-- Where different targets start at the same index, one of them gets the labels of both. Where the head is not reached, it
is taken out with its new cases. -/
theorem recoverStringSwitch_loses_dispatch :
    (∃ g g', shared = .ok g ∧ g.Wired ∧ g.recoverStringSwitch 0 0 = .ok (some g') ∧ g.HashSwitch 0 0 5 ∧ g.Reachable 0 ∧
      ¬ g.KeepsDispatch g' 0 0 5) ∧
    ∃ g g', unreached = .ok g ∧ g.Wired ∧ g.recoverStringSwitch 1 0 = .ok (some g') ∧ g.HashSwitch 0 1 4 ∧
      g.Apart (g.LeadsTo 0 1 4) ∧ ¬ g.KeepsDispatch g' 0 1 4 := by
  constructor
  · have shaped : shared.toOption.any fun g => g.start = 0 ∧ g.testsAre 0 0 5 [(97, 1), (98, 2)] ∧
        (g.edges[1]?.any fun edge => edge.bears 0 (.int 98) 2) ∧ g.comparisonAt? 0 2 = some ("b", .ne) ∧
        g.answer? .ne 2 true = some 4 ∧ g.isLeaf 4 ∧ (g.recoverStringSwitch 0 0).toOption.any fun r => r.any fun g' =>
          (g'.edges[7]?.any fun edge => edge.bears 0 (.string "b") 3) ∧ g'.isLeaf 3 := by decide +kernel
    obtain ⟨g, built, shaped⟩ := of_any_toOption shaped
    obtain ⟨start, are, labelled, compares, yes, leaf, recovered⟩ := of_decide_eq_true shaped
    obtain ⟨r, run, recovered⟩ := of_any_toOption recovered
    obtain ⟨g', rfl, recovered⟩ := (Option.any_eq_true _ _).mp recovered
    obtain ⟨labelled', leaf'⟩ := of_decide_eq_true recovered
    have wired := drawn_wired (by decide +kernel) built
    have reached : g.Reachable 0 := by
      rw [← start]
      exact .refl
    refine ⟨g, g', built, wired, run, hashSwitch_of_testsAre wired are, reached, fun keeps => ?_⟩
    have hashed : Text.stringHash "b" = 98 := by decide +kernel
    have dispatches : g.Dispatches 0 0 5 "b" 4 :=
      .inl ⟨2, hashed ▸ labels_of_bears labelled, .equal (compares_iff.mpr compares) (answers_iff.mpr yes)⟩
    have same := (keeps.same "b" 4 3 dispatches (.inl (labels_of_bears labelled'))).2 4
    have ends : g'.Settles 3 4 := same.mp ⟨.refl, fun _ => not_jumpsOn_of_isLeaf leaf⟩
    rcases Relation.ReflTransGen.cases_head ends.1 with equal | ⟨_, jumps, _⟩
    · cases equal
    · exact not_jumpsOn_of_isLeaf leaf' jumps
  · have shaped : unreached.toOption.any fun g => g.testsAre 0 1 4 [(97, 2)] ∧
        g.startApart (g.targetsOf 0 4 [(97, 2)]) ∧
        (g.recoverStringSwitch 1 0).toOption.any fun r => r.any fun g' => g'.isLeaf 1 := by decide +kernel
    obtain ⟨g, built, shaped⟩ := of_any_toOption shaped
    obtain ⟨are, places, recovered⟩ := of_decide_eq_true shaped
    obtain ⟨r, run, recovered⟩ := of_any_toOption recovered
    obtain ⟨g', rfl, leaf⟩ := (Option.any_eq_true _ _).mp recovered
    have wired := drawn_wired (by decide +kernel) built
    refine ⟨g, g', built, wired, run, hashSwitch_of_testsAre wired are, apart_of_testsAre wired are places, fun keeps => ?_⟩
    obtain ⟨t, labelled | ⟨_, labelled⟩⟩ := keeps.selects "a"
    · exact not_labels_of_isLeaf leaf labelled
    · exact not_labels_of_isLeaf leaf labelled

end Graph

end Unstack
