import Unstack.Proofs.Recovery.Switching

namespace Unstack.Graph

variable {g : Graph} {strings : List (String × BlockId)} {table : CaseTable} {fallback : BlockId}
  {entry : Nat × BlockId × List CaseLabel}

section Table

variable {table : CaseTable} {pc : Nat} {target : BlockId} {label : CaseLabel}

/-- A case of the table has the label and the target. -/
def Offers (table : CaseTable) (label : CaseLabel) (target : BlockId) : Prop :=
  ∃ entry ∈ table, entry.2.1 = target ∧ label ∈ entry.2.2

theorem offers_cons (entry : Nat × BlockId × List CaseLabel) (l : CaseLabel) (t : BlockId) :
    Offers (entry :: table) l t ↔ entry.2.1 = t ∧ l ∈ entry.2.2 ∨ Offers table l t := by
  simp [Offers]

/-- A label is added to the case at its index or to a new one. -/
theorem mem_addCase (member : entry ∈ addCase pc target label table) :
    entry.1 = pc ∧ entry.2.1 = target ∨ ∃ old ∈ table, old.1 = entry.1 ∧ old.2.1 = entry.2.1 := by
  induction table with
  | nil =>
    rw [List.mem_singleton.mp member]
    exact .inl ⟨rfl, rfl⟩
  | cons first rest ih =>
    obtain ⟨other, block, labels⟩ := first
    have kept (member : entry ∈ (other, block, labels) :: rest) :
        ∃ old ∈ (other, block, labels) :: rest, old.1 = entry.1 ∧ old.2.1 = entry.2.1 := ⟨entry, member, rfl, rfl⟩
    unfold addCase at member
    split at member
    · rcases List.mem_cons.mp member with rfl | old
      · exact .inl ⟨rfl, rfl⟩
      · exact .inr (kept old)
    · split at member
      · rcases List.mem_cons.mp member with rfl | old
        · exact .inr ⟨_, .head _, rfl, rfl⟩
        · exact .inr (kept (.tail _ old))
      · rcases List.mem_cons.mp member with rfl | old
        · exact .inr (kept (.head _))
        · rcases ih old with here | ⟨found, among, same⟩
          · exact .inl here
          · exact .inr ⟨found, .tail _ among, same⟩

theorem offers_addCase (same : ∀ entry ∈ table, entry.1 = pc → entry.2.1 = target) (l : CaseLabel) (t : BlockId) :
    Offers (addCase pc target label table) l t ↔ l = label ∧ t = target ∨ Offers table l t := by
  induction table with
  | nil => simp [addCase, Offers, eq_comm, and_comm]
  | cons first rest ih =>
    obtain ⟨other, block, labels⟩ := first
    unfold addCase
    split
    · simp [offers_cons, eq_comm, and_comm]
    · split
      · rename_i here
        obtain rfl : block = target := same _ (.head _) here.symm
        simp only [offers_cons, List.mem_append, List.mem_singleton]
        grind
      · rw [offers_cons, ih fun entry member => same entry (.tail _ member), offers_cons]
        exact or_left_comm

theorem labels_addCase (pc : Nat) (target : BlockId) (label : CaseLabel) (table : CaseTable) :
    ((addCase pc target label table).flatMap fun entry => entry.2.2).Perm
      (label :: table.flatMap fun entry => entry.2.2) := by
  induction table with
  | nil => exact .refl _
  | cons first rest ih =>
    obtain ⟨other, block, labels⟩ := first
    unfold addCase
    split
    · exact .refl _
    · split
      · simp only [List.flatMap_cons, List.append_assoc, List.singleton_append]
        exact List.perm_middle
      · simp only [List.flatMap_cons]
        exact (ih.append_left labels).trans List.perm_middle

end Table

/-- The table holds the labels with their targets, each at the index where its target starts. -/
structure Tabled (g : Graph) (cases : List (CaseLabel × BlockId)) (table : CaseTable) : Prop where
  offers (label : CaseLabel) (target : BlockId) : Offers table label target ↔ (label, target) ∈ cases
  place (entry : Nat × BlockId × List CaseLabel) : entry ∈ table →
    (∃ label, (label, entry.2.1) ∈ cases) ∧ g.blocks[entry.2.1]?.map Block.pc = some entry.1
  labels : (table.flatMap fun entry => entry.2.2).Perm (cases.map Prod.fst)

theorem Tabled.add {cases : List (CaseLabel × BlockId)} (tabled : g.Tabled cases table)
    {target : BlockId} {block : Block} (found : g.blocks[target]? = some block)
    (apart : ∀ entry ∈ cases, g.blocks[entry.2]?.map Block.pc = some block.pc → entry.2 = target) (label : CaseLabel) :
    g.Tabled ((label, target) :: cases) (addCase block.pc target label table) := by
  refine ⟨fun l t => ?_, fun entry member => ?_, ?_⟩
  · rw [offers_addCase fun entry member here => ?_, tabled.offers, List.mem_cons, Prod.mk.injEq]
    obtain ⟨⟨label, among⟩, place⟩ := tabled.place entry member
    exact apart _ among (here ▸ place)
  · rcases mem_addCase member with ⟨here, same⟩ | ⟨old, among, here, same⟩
    · rw [same, here, found]
      exact ⟨⟨label, .head _⟩, rfl⟩
    · obtain ⟨⟨label', among'⟩, place⟩ := tabled.place old among
      rw [← same, ← here]
      exact ⟨⟨label', .tail _ among'⟩, place⟩
  · exact (labels_addCase ..).trans (tabled.labels.cons label)

/-- The new cases of a switch on strings, the fallback first. -/
def newCases (strings : List (String × BlockId)) (fallback : BlockId) : List (CaseLabel × BlockId) :=
  (.fallback, fallback) :: (strings.map fun entry => (.string entry.1, entry.2)).reverse

theorem string_mem_newCases {t : BlockId} {s : String} :
    (.string s, t) ∈ newCases strings fallback ↔ (s, t) ∈ strings := by
  simp [newCases]

theorem fallback_mem_newCases {t : BlockId} : (.fallback, t) ∈ newCases strings fallback ↔ t = fallback := by
  simp [newCases]

theorem nodup_newCases (once : (strings.map Prod.fst).Nodup) (fallback : BlockId) :
    ((newCases strings fallback).map Prod.fst).Nodup := by
  have labels : (strings.map fun entry => CaseLabel.string entry.1).Nodup := by
    have mapped := once.map (f := CaseLabel.string) fun _ _ same => CaseLabel.string.inj same
    simpa [List.map_map, Function.comp_def] using mapped
  simp only [newCases, List.map_cons, List.map_reverse, List.map_map, Function.comp_def, List.nodup_cons, List.mem_reverse,
    List.nodup_reverse]
  exact ⟨by simp, labels⟩

/-- Targets that start at the same index are the same. -/
def Apart (g : Graph) (targets : BlockId → Prop) : Prop :=
  ∀ a b, targets a → targets b → g.blocks[a]?.map Block.pc = g.blocks[b]?.map Block.pc → a = b

/-- The table offers each string its own block, and the rest the fallback. -/
theorem stringCases_tabled {targets : BlockId → Prop} (apart : g.Apart targets) (each : ∀ entry ∈ strings, targets entry.2)
    (last : targets fallback) (run : g.stringCases strings fallback = .ok table) :
    g.Tabled (newCases strings fallback) table := by
  -- from left to right, each string adds a case to those before it
  have all (rest : List (String × BlockId)) (each : ∀ entry ∈ rest, targets entry.2)
      {cases : List (CaseLabel × BlockId)} (known : ∀ entry ∈ cases, targets entry.2) {before after : CaseTable}
      (tabled : g.Tabled cases before)
      (run : rest.foldlM (fun table (entry : String × BlockId) => do
        return addCase (← g.block entry.2).pc entry.2 (.string entry.1) table) before = .ok after) :
      g.Tabled ((rest.map fun entry => (.string entry.1, entry.2)).reverse ++ cases) after := by
    induction rest generalizing cases before with
    | nil =>
      cases run
      exact tabled
    | cons entry rest ih =>
      rw [List.foldlM_cons] at run
      obtain ⟨mid, first, run⟩ := bind_eq_ok.mp run
      obtain ⟨block, found, made⟩ := bind_eq_ok.mp first
      cases made
      have here := each entry (.head _)
      have found := block_eq_ok.mp found
      have next := tabled.add found (fun other member same => ?_) (.string entry.1)
      · have later := ih (fun other member => each other (.tail _ member)) (fun other member => ?_) next run
        · simpa using later
        · rcases List.mem_cons.mp member with rfl | old
          · exact here
          · exact known other old
      · exact apart _ _ (known other member) here (by rw [same, found]; rfl)
  have none : g.Tabled [] [] := ⟨by simp [Offers], by simp, by simp⟩
  obtain ⟨table', folded, run⟩ := bind_eq_ok.mp run
  obtain ⟨block, found, made⟩ := bind_eq_ok.mp run
  cases made
  have found := block_eq_ok.mp found
  have tabled := all strings each (by simp) none folded
  rw [List.append_nil] at tabled
  refine tabled.add found (fun other member same => ?_) .fallback
  simp only [List.mem_reverse, List.mem_map] at member
  obtain ⟨entry, among, rfl⟩ := member
  exact apart _ _ (each entry among) last (by rw [same, found]; rfl)

theorem eq_of_label (once : (table.flatMap fun entry => entry.2.2).Nodup) {i j : Nat}
    {entry' : Nat × BlockId × List CaseLabel} (atI : table[i]? = some entry) (atJ : table[j]? = some entry')
    {label : CaseLabel} (member : label ∈ entry.2.2) (member' : label ∈ entry'.2.2) : i = j := by
  have apart := (List.nodup_flatMap.mp once).2
  obtain ⟨insideI, rfl⟩ := List.getElem?_eq_some_iff.mp atI
  obtain ⟨insideJ, rfl⟩ := List.getElem?_eq_some_iff.mp atJ
  rcases Nat.lt_trichotomy i j with below | same | above
  · exact absurd member' (List.pairwise_iff_getElem.mp apart i j insideI insideJ below member)
  · exact same
  · exact absurd member (List.pairwise_iff_getElem.mp apart j i insideJ insideI above member')

end Unstack.Graph
