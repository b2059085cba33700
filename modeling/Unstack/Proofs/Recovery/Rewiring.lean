import Unstack.Proofs.Graph.Postorder
import Unstack.Proofs.Recovery.CaseTable
import Unstack.Proofs.Recovery.TestChain

namespace Unstack.Graph

variable {g g' : Graph} {head b next c t : BlockId} {e : EdgeId} {label : CaseLabel}

/-- The block does nothing but go on to the next one. -/
def JumpsOn (g : Graph) (b next : BlockId) : Prop :=
  (∃ c, g.contentOf b = some c ∧ c.stmts = [] ∧ ∀ o ∈ c.ops, ∃ target, o.instr = .goto target) ∧
    ∃ e, g.Joins e b next ∧ g.edges[e]?.map Edge.kind = some .sequence ∧ ∀ e' t, g.Joins e' b t → e' = e

/-- Control gets from the first block to the second through blocks that only jump on. -/
def Skips (g : Graph) : BlockId → BlockId → Prop := Relation.ReflTransGen g.JumpsOn

/-- Control that comes to the first block does something at the second and nothing before. -/
def Settles (g : Graph) (b c : BlockId) : Prop := g.Skips b c ∧ ∀ next, ¬ g.JumpsOn c next

theorem Wired.jumpsOn_of_jumpOn? (wired : g.Wired) (run : g.jumpOn? b = .ok (some next)) : g.JumpsOn b next := by
  obtain ⟨block, found, run⟩ := bind_eq_ok.mp run
  have found := block_eq_ok.mp found
  have inside : b < g.blocks.size := found.lt_size
  obtain ⟨target, atTarget, run⟩ := bind_eq_ok.mp run
  obtain ⟨target', atTarget', joins⟩ := wired.targetOf_total inside .sequence
  cases atTarget.ok_unique atTarget'
  cases target with
  | none => cases run
  | some onward =>
    simp only at run
    split at run
    · rename_i only
      cases run
      simp only [Bool.and_eq_true, List.isEmpty_iff, List.all_eq_true, decide_eq_true_eq] at only
      obtain ⟨⟨noStmts, gotos⟩, single⟩ := only
      obtain ⟨e, edge, atEdge, kind, joined⟩ := joins next rfl
      obtain ⟨only, same⟩ := List.length_eq_one_iff.mp single
      have alone (e' : EdgeId) (t : BlockId) (joins : g.Joins e' b t) : e' = only := by
        have member := (wired.mem_outs b e').mpr ⟨t, joins⟩
        rw [outsOf_eq found, same] at member
        exact List.mem_singleton.mp member
      refine ⟨⟨block.content, contentOf_eq found, noStmts, fun o member => ?_⟩, e, joined, by rw [atEdge, ← kind]; rfl,
        fun e' t joins => (alone e' t joins).trans (alone e next joined).symm⟩
      have isGoto := gotos o member
      split at isGoto
      · rename_i target goto
        exact ⟨target, goto⟩
      · cases isGoto
    · cases run

/-- A destination is reached by skipping. -/
theorem Wired.skips_of_skipJumps (wired : g.Wired) {left : Nat} (run : g.skipJumps left b = .ok c) : g.Skips b c := by
  induction left generalizing b with
  | zero =>
    cases run
    exact .refl
  | succ left ih =>
    obtain ⟨next, jumps, run⟩ := bind_eq_ok.mp run
    cases next with
    | none =>
      cases run
      exact .refl
    | some next => exact .head (wired.jumpsOn_of_jumpOn? jumps) (ih run)

/-- A block with a label at one of its edges does not only jump on. -/
theorem Bears.not_jumpsOn (bears : g.Bears e b label t) : ¬ g.JumpsOn b next := by
  intro jumps
  obtain ⟨joins, edge, atEdge, member⟩ := bears
  obtain ⟨_, e', _, kind, alone⟩ := jumps
  rw [← alone e t joins, atEdge] at kind
  rw [Option.some.inj kind] at member
  cases member

theorem withCases_edge (table : CaseTable) (e : EdgeId) :
    (g.withCases head table).edges[e]? = if e < g.edges.size then g.edges[e]?
      else table[e - g.edges.size]?.map fun entry => ⟨head, entry.2.1, .switchCase entry.2.2, false, false⟩ := by
  induction table generalizing g with
  | nil =>
    rw [List.getElem?_nil, Option.map_none]
    split
    · rfl
    · rename_i outside
      exact Array.getElem?_eq_none (Nat.not_lt.mp outside)
  | cons entry rest ih =>
    have size : (g.withEdge head entry.2.1 (.switchCase entry.2.2)).edges.size = g.edges.size + 1 := by simp [withEdge]
    refine ih.trans ?_
    rw [size, withEdge_edge]
    rcases Nat.lt_trichotomy e g.edges.size with below | rfl | above
    · rw [if_pos (Nat.lt_succ_of_lt below), if_neg (Nat.ne_of_lt below), if_pos below]
    · simp
    · obtain ⟨i, rfl⟩ := Nat.exists_eq_add_of_le (Nat.succ_le_of_lt above)
      have later : g.edges.size + 1 + i - g.edges.size = i + 1 := by omega
      rw [if_neg (Nat.not_lt.mpr above), if_neg (Nat.not_lt.mpr (Nat.le_of_lt above)), Nat.add_sub_cancel_left, later,
        List.getElem?_cons_succ]

theorem withCases_joins (table : CaseTable) (e : EdgeId) (source target : BlockId) :
    (g.withCases head table).Joins e source target ↔ g.Joins e source target ∨
      source = head ∧ ∃ i entry, e = g.edges.size + i ∧ table[i]? = some entry ∧ entry.2.1 = target := by
  rw [Joins, withCases_edge]
  split
  · rename_i old
    refine ⟨.inl, fun joins => joins.resolve_right ?_⟩
    rintro ⟨_, i, _, rfl, _⟩
    exact absurd old (Nat.not_lt.mpr (Nat.le_add_right _ i))
  · rename_i new
    obtain ⟨i, rfl⟩ := Nat.exists_eq_add_of_le (Nat.not_lt.mp new)
    rw [Nat.add_sub_cancel_left]
    constructor
    · rintro ⟨_, found, _, rfl, rfl⟩
      obtain ⟨entry, atEntry, rfl⟩ := Option.map_eq_some_iff.mp found
      exact .inr ⟨rfl, i, entry, rfl, atEntry, rfl⟩
    · rintro (joins | ⟨rfl, j, entry, same, atEntry, rfl⟩)
      · exact absurd joins.lt new
      · obtain rfl := Nat.add_left_cancel same
        rw [atEntry]
        exact ⟨_, rfl, rfl, rfl, rfl⟩

theorem without_kind (edges : List EdgeId) (e : EdgeId) :
    (g.without edges).edges[e]?.map Edge.kind = g.edges[e]?.map Edge.kind := by
  rw [without_edge, Option.map_map]
  rfl

theorem withoutBlocks_kind (dead : List BlockId) (e : EdgeId) :
    (g.withoutBlocks dead).edges[e]?.map Edge.kind = g.edges[e]?.map Edge.kind := by
  induction dead generalizing g with
  | nil => rfl
  | cons b rest ih =>
    refine ih.trans ?_
    exact without_kind (g.insOf b ++ g.outsOf b) e

section Unreached

variable {dead : List BlockId} {i : BlockId} (wired : g.Wired)

include wired

theorem Wired.reachable_of_withoutBlocks (reached : (g.withoutBlocks dead).Reachable i) : g.Reachable i := by
  induction reached with
  | refl => exact (withoutBlocks_start (g := g) dead).symm ▸ .refl
  | tail _ step ih =>
    obtain ⟨e, joins⟩ := step
    exact ih.tail ⟨e, ((wired.withoutBlocks_joins dead e _ _).mp joins).1⟩

/-- Without blocks that are not reached, the others keep their edges. -/
theorem Wired.joins_withoutBlocks_of_reached (unreached : ∀ b ∈ dead, ¬ g.Reachable b) (reached : g.Reachable i) :
    (g.withoutBlocks dead).Joins e i t ↔ g.Joins e i t := by
  rw [wired.withoutBlocks_joins]
  refine and_iff_left_of_imp fun joins => ⟨fun lost => unreached i lost reached, fun lost => ?_⟩
  exact unreached t lost (reached.tail ⟨e, joins⟩)

end Unreached

/-- What becomes of a graph whose switch gets other cases: what is still reached is as before, apart from the head. -/
structure Rewired (g g' : Graph) (head : BlockId) (table : CaseTable) : Prop where
  content (i : BlockId) : g'.contentOf i = g.contentOf i
  reached : g'.Reachable head
  joins (e : EdgeId) (i t : BlockId) : i ≠ head → g'.Reachable i → (g'.Joins e i t ↔ g.Joins e i t)
  kind (e : EdgeId) : e < g.edges.size → g'.edges[e]?.map Edge.kind = g.edges[e]?.map Edge.kind
  bears (e : EdgeId) (label : CaseLabel) (t : BlockId) : g'.Bears e head label t ↔
    ∃ i entry, e = g.edges.size + i ∧ table[i]? = some entry ∧ entry.2.1 = t ∧ label ∈ entry.2.2

/-- A block is reached before any of its edges is taken. -/
theorem reachable_of_kept {mid : Graph} (start : mid.start = g.start)
    (kept : ∀ e source target, source ≠ head → g.Joins e source target → mid.Joins e source target)
    (reached : g.Reachable head) : mid.Reachable head := by
  have all (i : BlockId) (reached : g.Reachable i) : mid.Reachable i ∨ mid.Reachable head := by
    induction reached with
    | refl => exact .inl (start ▸ .refl)
    | @tail source target _ step ih =>
      obtain ⟨e, joins⟩ := step
      rcases ih with known | early
      · by_cases here : source = head
        · exact .inr (here ▸ known)
        · exact .inl (known.tail ⟨e, kept e source target here joins⟩)
      · exact .inr early
  exact (all head reached).elim id id

theorem isSwitchCase_of_label {kind : EdgeKind} (member : label ∈ kind.labels) : kind.isSwitchCase = true := by
  cases kind with
  | switchCase => rfl
  | _ => cases member

theorem bears_iff_kind : g.Bears e b label t ↔
    g.Joins e b t ∧ ∃ kind, g.edges[e]?.map Edge.kind = some kind ∧ label ∈ kind.labels := by
  simp [Bears]

/-- The edges with labels among those that leave a block. -/
def caseEdges (outs : List (EdgeId × Edge)) : List EdgeId :=
  (outs.filter fun out => out.2.kind.isSwitchCase).map Prod.fst

section Recased

variable {outs : List (EdgeId × Edge)} {table : CaseTable} (wired : g.Wired) (live : g.Live head)
  (leaving : g.outs head = .ok outs)

include wired live leaving

theorem Wired.mem_caseEdges (e : EdgeId) : e ∈ caseEdges outs ↔
    ∃ edge, g.edges[e]? = some edge ∧ g.Joins e head edge.target ∧ edge.kind.isSwitchCase = true := by
  obtain ⟨front, atHead, _⟩ := live
  simp only [caseEdges, List.mem_map, List.mem_filter, Prod.exists, wired.mem_outs_iff atHead leaving]
  constructor
  · rintro ⟨_, edge, ⟨⟨atEdge, used, source⟩, isCase⟩, rfl⟩
    exact ⟨edge, atEdge, ⟨edge, atEdge, used, source, rfl⟩, isCase⟩
  · rintro ⟨edge, atEdge, ⟨_, atEdge', used, source, _⟩, isCase⟩
    cases atEdge.some_unique atEdge'
    exact ⟨e, edge, ⟨⟨atEdge, used, source⟩, isCase⟩, rfl⟩

theorem Wired.recased_joins (e : EdgeId) (source target : BlockId) (other : source ≠ head) :
    ((g.withCases head table).without (caseEdges outs)).Joins e source target ↔ g.Joins e source target := by
  rw [without_joins, withCases_joins]
  constructor
  · rintro ⟨_, joins | ⟨here, _⟩⟩
    · exact joins
    · exact absurd here other
  · intro joins
    refine ⟨fun lost => ?_, .inl joins⟩
    obtain ⟨_, _, joins', _⟩ := (wired.mem_caseEdges live leaving e).mp lost
    exact other (joins.unique joins').1

/-- The head has the labels of the table and no others. -/
theorem Wired.recased_bears (e : EdgeId) (label : CaseLabel) (t : BlockId) :
    ((g.withCases head table).without (caseEdges outs)).Bears e head label t ↔
      ∃ i entry, e = g.edges.size + i ∧ table[i]? = some entry ∧ entry.2.1 = t ∧ label ∈ entry.2.2 := by
  have mem_gone := wired.mem_caseEdges live leaving
  have newKind (i : Nat) : (g.withCases head table).edges[g.edges.size + i]?.map Edge.kind =
      table[i]?.map fun entry => .switchCase entry.2.2 := by
    rw [withCases_edge, if_neg (Nat.not_lt.mpr (Nat.le_add_right _ i)), Nat.add_sub_cancel_left, Option.map_map]
    rfl
  rw [bears_iff_kind, without_kind, without_joins, withCases_joins]
  constructor
  · rintro ⟨⟨there, joins | ⟨_, i, entry, rfl, atEntry, rfl⟩⟩, kind, atKind, member⟩
    · -- an old edge with a label is gone
      have ⟨edge, atEdge, _, _, target⟩ := joins
      rw [withCases_edge, if_pos joins.lt, atEdge] at atKind
      cases atKind
      exact absurd ((mem_gone e).mpr ⟨edge, atEdge, target ▸ joins, isSwitchCase_of_label member⟩) there
    · rw [newKind, atEntry] at atKind
      cases atKind
      exact ⟨i, entry, rfl, atEntry, rfl, member⟩
  · rintro ⟨i, entry, rfl, atEntry, rfl, member⟩
    refine ⟨⟨fun lost => ?_, .inr ⟨rfl, i, entry, rfl, atEntry, rfl⟩⟩, .switchCase entry.2.2, ?_, member⟩
    · obtain ⟨_, _, joins, _⟩ := (mem_gone _).mp lost
      exact absurd joins.lt (Nat.not_lt.mpr (Nat.le_add_right _ i))
    · rw [newKind, atEntry]
      rfl

/-- Reading a switch on hashes as one on strings gives its head the cases of the table. -/
theorem Wired.rewired (reached : g.Reachable head) (targets : ∀ entry ∈ table, g.Live entry.2.1) {dead : List BlockId}
    (unreached : ∀ i ∈ dead, ¬ ((g.withCases head table).without (caseEdges outs)).Reachable i) :
    g.Rewired (((g.withCases head table).without (caseEdges outs)).withoutBlocks dead) head table := by
  have wiredMid := (wired.withCases live targets).without (caseEdges outs)
  have kept (e : EdgeId) (source target : BlockId) (other : source ≠ head) :
      ((g.withCases head table).without (caseEdges outs)).Joins e source target ↔ g.Joins e source target :=
    wired.recased_joins live leaving e source target other
  have reachedMid : ((g.withCases head table).without (caseEdges outs)).Reachable head :=
    reachable_of_kept (withCases_start table) (fun e source target other => (kept e source target other).mpr) reached
  refine ⟨fun i => ?_, ?_, fun e i t other reached => ?_, fun e old => ?_, fun e label t => ?_⟩
  · rw [contentOf_withoutBlocks, contentOf_without, contentOf_withCases]
  · exact wiredMid.reachable_withoutBlocks unreached reachedMid
  · rw [wiredMid.joins_withoutBlocks_of_reached unreached (wiredMid.reachable_of_withoutBlocks reached), kept e i t other]
  · rw [withoutBlocks_kind, without_kind, withCases_edge, if_pos old]
  · rw [bears_iff_kind, wiredMid.joins_withoutBlocks_of_reached unreached reachedMid, withoutBlocks_kind, ← bears_iff_kind,
      wired.recased_bears live leaving]

end Recased

theorem JumpsOn.unique {next' : BlockId} (first : g.JumpsOn b next) (second : g.JumpsOn b next') : next = next' := by
  obtain ⟨_, e, joins, _, _⟩ := first
  obtain ⟨_, e', joins', _, alone⟩ := second
  cases alone e next joins
  exact (joins.unique joins').2

theorem Skips.settles_iff {d : BlockId} (skips : g.Skips b c) : g.Settles b d ↔ g.Settles c d := by
  induction skips using Relation.ReflTransGen.head_induction_on with
  | refl => exact .rfl
  | head jumps _ ih =>
    refine Iff.trans ⟨fun settles => ?_, fun settles => ⟨.head jumps settles.1, settles.2⟩⟩ ih
    obtain ⟨skips, ends⟩ := settles
    rcases Relation.ReflTransGen.cases_head skips with rfl | ⟨next, jumps', skips⟩
    · exact absurd jumps (ends _)
    · exact ⟨jumps.unique jumps' ▸ skips, ends⟩

/-- Control that comes to one block in one graph and to another block in the other graph gets to a common block through
blocks that only jump on, and it settles in the same block if it does so at all. -/
def SameEnd (g g' : Graph) (t t' : BlockId) : Prop :=
  (∃ c, g.Skips t c ∧ g'.Skips t' c) ∧ ∀ c, g.Settles t c ↔ g'.Settles t' c

section Rewired

variable {table : CaseTable} {label label' : CaseLabel} {t t' : BlockId} (rewired : g.Rewired g' head table)
  (before : g.Labels head label t) (after : Offers table label' t')

include rewired

theorem Rewired.labels_iff (label : CaseLabel) (t : BlockId) : g'.Labels head label t ↔ Offers table label t := by
  simp only [Labels, rewired.bears]
  constructor
  · rintro ⟨_, i, entry, rfl, atEntry, target, member⟩
    exact ⟨entry, List.mem_of_getElem? atEntry, target, member⟩
  · rintro ⟨entry, among, target, member⟩
    obtain ⟨i, atEntry⟩ := List.mem_iff_getElem?.mp among
    exact ⟨_, i, entry, rfl, atEntry, target, member⟩

include before after

theorem Rewired.jumpsOn_iff {i : BlockId} (reached : g'.Reachable i) (next : BlockId) :
    g'.JumpsOn i next ↔ g.JumpsOn i next := by
  by_cases here : i = head
  · subst here
    obtain ⟨_, bears⟩ := before
    obtain ⟨_, bears'⟩ := (rewired.labels_iff label' t').mpr after
    exact iff_of_false bears'.not_jumpsOn bears.not_jumpsOn
  · simp only [JumpsOn, rewired.content, rewired.joins _ i _ here reached]
    refine and_congr_right fun _ => exists_congr fun e => and_congr_right fun joins => ?_
    rw [rewired.kind e joins.lt]

theorem Rewired.skips_iff {i : BlockId} (reached : g'.Reachable i) (c : BlockId) :
    g'.Skips i c ↔ g.Skips i c := by
  have onward {i next : BlockId} (reached : g'.Reachable i) (jumps : g'.JumpsOn i next) : g'.Reachable next := by
    obtain ⟨_, e, joins, _⟩ := jumps
    exact reached.tail ⟨e, joins⟩
  constructor
  · intro skips
    induction skips using Relation.ReflTransGen.head_induction_on with
    | refl => exact .refl
    | head jumps _ ih => exact .head ((rewired.jumpsOn_iff before after reached _).mp jumps) (ih (onward reached jumps))
  · intro skips
    induction skips using Relation.ReflTransGen.head_induction_on with
    | refl => exact .refl
    | head jumps _ ih =>
      have jumps' := (rewired.jumpsOn_iff before after reached _).mpr jumps
      exact .head jumps' (ih (onward reached jumps'))

theorem Rewired.sameEnd {a : BlockId} (reached : g'.Reachable b) (first : g.Skips a c) (second : g.Skips b c) :
    g.SameEnd g' a b := by
  have skips := rewired.skips_iff before after reached
  refine ⟨⟨c, first, (skips c).mpr second⟩, fun d => ?_⟩
  rw [first.settles_iff, ← second.settles_iff, Settles, Settles, skips]
  refine and_congr_right fun there => forall_congr' fun next => not_congr ?_
  have reachedD : g'.Reachable d := by
    have path := (skips d).mpr there
    clear skips there second first
    induction path with
    | refl => exact reached
    | tail _ jumps ih =>
      obtain ⟨_, e, joins, _⟩ := jumps
      exact ih.tail ⟨e, joins⟩
  exact (rewired.jumpsOn_iff before after reachedD next).symm

end Rewired

end Unstack.Graph
