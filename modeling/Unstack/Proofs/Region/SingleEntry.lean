import Unstack.Proofs.Region.ExactLoop

namespace Unstack

variable {fuel : Nat}

namespace Flow

variable {n : Nat} {f : Flow n} {head : Fin n} {seen work : List (Fin n)}

/-- An edge that is not a back edge leads from the first block to the second. -/
def Enters (f : Flow n) (a b : Fin n) : Prop := a ∈ f.forwardPreds b

theorem findsBackward_sound (finds : f.findsBackward head fuel work seen = true) :
    ∃ b ∈ work, Relation.TransGen f.Enters head b := by
  induction fuel generalizing work seen with
  | zero => cases finds
  | succ fuel ih =>
    cases work with
    | nil => cases finds
    | cons b rest =>
      rw [findsBackward] at finds
      split at finds
      · rename_i enters
        exact ⟨b, .head _, .single enters⟩
      · obtain ⟨c, member, leads⟩ := ih finds
        rcases List.mem_append.mp member with fresh | waiting
        · have enters : f.Enters c b := (List.mem_filter.mp (List.mem_eraseDups.mp fresh)).1
          exact ⟨b, .head _, leads.tail enters⟩
        · exact ⟨c, .tail _ waiting, leads⟩

/-- Nothing leads into blocks that are entered from one another only. -/
theorem not_enters_of_closed (closed : ∀ b ∈ seen, head ∉ f.forwardPreds b ∧ f.forwardPreds b ⊆ seen) {b : Fin n}
    (member : b ∈ seen) : ¬ Relation.TransGen f.Enters head b := by
  intro leads
  induction leads with
  | single enters => exact (closed _ member).1 enters
  | tail _ enters ih => exact ih ((closed _ member).2 enters)

theorem nodup_eraseDups (blocks : List (Fin n)) : blocks.eraseDups.Nodup := by
  induction size : blocks.length using Nat.strong_induction_on generalizing blocks with
  | h _ ih =>
    cases blocks with
    | nil => exact List.nodup_nil
    | cons b rest =>
      have shorter := List.length_filter_le (fun c => !c == b) rest
      rw [List.length_cons] at size
      rw [List.eraseDups_cons]
      exact List.nodup_cons.mpr ⟨by simp [List.mem_eraseDups], ih _ (by omega) _ rfl⟩

/-- A search backward that finds nothing has seen all that leads to its blocks. -/
theorem findsBackward_complete (once : seen.Nodup) (enough : work.length + (n - seen.length) ≤ fuel)
    (settled : ∀ b ∈ seen, b ∈ work ∨ head ∉ f.forwardPreds b ∧ f.forwardPreds b ⊆ seen)
    (none : f.findsBackward head fuel work seen = false) {b : Fin n} (member : b ∈ seen) :
    ¬ Relation.TransGen f.Enters head b := by
  induction fuel generalizing work seen with
  | zero =>
    have ended : work = [] := List.eq_nil_of_length_eq_zero (by omega)
    exact not_enters_of_closed (fun c known => (settled c known).resolve_left (by simp [ended])) member
  | succ fuel ih =>
    cases work with
    | nil => exact not_enters_of_closed (fun c known => (settled c known).resolve_left (by simp)) member
    | cons c rest =>
      rw [findsBackward] at none
      split at none
      · cases none
      · rename_i outside
        simp only at none
        generalize list : ((f.forwardPreds c).filter (· ∉ seen)).eraseDups = fresh at none
        have mem_fresh (p : Fin n) : p ∈ fresh ↔ p ∈ f.forwardPreds c ∧ p ∉ seen := by
          rw [← list, List.mem_eraseDups, List.mem_filter, decide_eq_true_eq]
        have once' : (fresh ++ seen).Nodup := by
          refine List.nodup_append'.mpr ⟨list ▸ nodup_eraseDups _, once, fun p new old => ?_⟩
          exact ((mem_fresh p).mp new).2 old
        have bound := once'.length_le_card
        simp only [List.length_append, Fintype.card_fin] at bound
        refine ih once' ?_ (fun p known => ?_) none (List.mem_append_right _ member)
        · simp only [List.length_append, List.length_cons] at enough ⊢
          omega
        · -- what the block just taken is entered from is seen now
          rcases List.mem_append.mp known with new | old
          · exact .inl (List.mem_append_left _ new)
          · rcases settled p old with waiting | ⟨noHead, inside⟩
            · rcases List.mem_cons.mp waiting with rfl | later
              · refine .inr ⟨outside, fun q enters => ?_⟩
                by_cases old : q ∈ seen
                · exact List.mem_append_right _ old
                · exact List.mem_append_left _ ((mem_fresh q).mpr ⟨enters, old⟩)
              · exact .inl (List.mem_append_right _ later)
            · exact .inr ⟨noHead, fun q enters => List.mem_append_right _ (inside enters)⟩

/-- The search backwards finds the head exactly if it leads to the block. -/
theorem hasPred_iff (f : Flow n) (b head : Fin n) : f.hasPred b head = true ↔ Relation.TransGen f.Enters head b := by
  constructor
  · intro finds
    obtain ⟨c, member, leads⟩ := findsBackward_sound finds
    rwa [List.mem_singleton.mp member] at leads
  · intro leads
    by_contra none
    have size : 0 < n := b.pos
    exact findsBackward_complete (List.nodup_singleton b) (by simp; omega) (fun c known => .inl known)
      (Bool.eq_false_iff.mpr none) (List.mem_singleton_self b) leads

end Flow

namespace View

variable {n : Nat} {v : View n} {start head first b : Fin n} {reached : Fin n → Prop} {found found' : Branch n}

mutual

/-- The search of a branch from a block on, as a recursion that nothing bounds. -/
inductive Runs (v : View n) (head : Fin n) : Fin n → Branch n → Branch n → Prop where
  | known {b : Fin n} {found found' : Branch n} : b ∈ found.members →
    RunsAll v head (v.flow.forwardSuccs b) found found' → Runs v head b found found'
  | single {b : Fin n} {found found' : Branch n} : b ∉ found.members → (v.ins b).length ≤ 1 →
    RunsAll v head (v.flow.forwardSuccs b) { found with members := found.members ++ [b] } found' → Runs v head b found found'
  | stop {b : Fin n} {found : Branch n} {arc : Arc n} : b ∉ found.members → 1 < (v.ins b).length →
    v.outsider? head found.members b = some arc → Runs v head b found (v.stopAt head found b arc.source)
  | enclosed {b : Fin n} {found found' : Branch n} : b ∉ found.members → 1 < (v.ins b).length →
    v.outsider? head found.members b = none →
    RunsAll v head (v.flow.forwardSuccs b) ⟨found.members ++ [b], found.follows.filter (· != b)⟩ found' →
    Runs v head b found found'

/-- The searches from some blocks on, one after the other, of those that are no members by then. -/
inductive RunsAll (v : View n) (head : Fin n) : List (Fin n) → Branch n → Branch n → Prop where
  | nil {found : Branch n} : RunsAll v head [] found found
  | skip {b : Fin n} {rest : List (Fin n)} {found found' : Branch n} : b ∈ found.members →
    RunsAll v head rest found found' → RunsAll v head (b :: rest) found found'
  | enter {b : Fin n} {rest : List (Fin n)} {found mid found' : Branch n} : b ∉ found.members →
    Runs v head b found mid → RunsAll v head rest mid found' → RunsAll v head (b :: rest) found found'

end

/-- How many blocks are no members. -/
def room (found : Branch n) : Nat := n - found.members.toFinset.card

theorem room_le (found : Branch n) : room found ≤ n := Nat.sub_le _ _

theorem toFinset_members_subset (more : found.members ⊆ found'.members) :
    found.members.toFinset ⊆ found'.members.toFinset := by
  intro c inside
  exact List.mem_toFinset.mpr (more (List.mem_toFinset.mp inside))

theorem room_mono (more : found.members ⊆ found'.members) : room found' ≤ room found :=
  Nat.sub_le_sub_left (Finset.card_le_card (toFinset_members_subset more)) n

theorem room_lt (more : found.members ⊆ found'.members) (fresh : b ∉ found.members) (new : b ∈ found'.members) :
    room found' < room found := by
  have grown : found.members.toFinset.card < found'.members.toFinset.card :=
    Finset.card_lt_card ((Finset.ssubset_iff_of_subset (toFinset_members_subset more)).mpr
      ⟨b, List.mem_toFinset.mpr new, fun inside => fresh (List.mem_toFinset.mp inside)⟩)
  have bound : found'.members.toFinset.card ≤ n := by simpa using Finset.card_le_univ found'.members.toFinset
  unfold room
  omega

/-- The searches behind a member are those of the recursion if the fuel lasts for each of them. -/
theorem runsAll_of_runs
    (runs : ∀ (b : Fin n) (found : Branch n), b ∉ found.members → room found ≤ fuel →
      v.Runs head b found (v.explore head fuel b found))
    (succs : List (Fin n)) {found : Branch n} (enough : room found ≤ fuel) :
    v.RunsAll head succs found (succs.foldl
      (fun found succ => if found.members.contains succ then found else v.explore head fuel succ found) found) := by
  induction succs generalizing found with
  | nil => exact .nil
  | cons succ rest ih =>
    rw [List.foldl_cons]
    split
    · rename_i known
      exact .skip (by simpa using known) (ih enough)
    · rename_i new
      have new : succ ∉ found.members := by simpa using new
      have grows : v.Grows head succ found (v.explore head fuel succ found) := explore_grows fuel (.inl rfl)
      exact .enter new (runs succ found new enough) (ih ((room_mono grows.members_subset).trans enough))

/-- A search with fuel for every block that is no member yet is one of the recursion. -/
theorem explore_runs (fresh : b ∉ found.members) (enough : room found ≤ fuel) :
    v.Runs head b found (v.explore head fuel b found) := by
  induction fuel generalizing b found with
  | zero =>
    have less : room ⟨found.members ++ [b], found.follows⟩ < room found := room_lt (by simp) fresh (by simp)
    omega
  | succ fuel ih =>
    have less (follows : List (Fin n)) : room ⟨found.members ++ [b], follows⟩ ≤ fuel :=
      Nat.le_of_lt_succ (Nat.lt_of_lt_of_le (room_lt (by simp) fresh (by simp)) enough)
    have behind (follows : List (Fin n)) := runsAll_of_runs (fun _ _ => ih) (v.flow.forwardSuccs b) (less follows)
    rw [explore]
    split
    · rename_i known
      exact absurd (by simpa using known) fresh
    · split
      · rename_i alone
        exact .single fresh alone (behind _)
      · rename_i several
        split
        · rename_i arc outside
          exact .stop fresh (by omega) outside
        · rename_i none
          exact .enclosed fresh (by omega) none (behind _)

/-- The recursion ends from every block and every state of a branch, and the search of a branch is its result. -/
theorem growBranch_runs (v : View n) (head b : Fin n) (found : Branch n) :
    v.Runs head b found (v.growBranch head b found) := by
  by_cases known : b ∈ found.members
  · rw [growBranch, explore, if_pos (by simpa using known)]
    exact .known known (runsAll_of_runs (fun _ _ => explore_runs) _ (by have := room_le found; omega))
  · exact explore_runs known (by have := room_le found; omega)

/-- Edges between members lead from the first block to the other one. -/
def Inward (v : View n) (members : List (Fin n)) : Fin n → Fin n → Prop :=
  Relation.ReflTransGen fun a b => a ∈ members ∧ v.flow.Steps a b

theorem Inward.mono {members members' : List (Fin n)} {a : Fin n} (inward : v.Inward members a b)
    (more : members ⊆ members') : v.Inward members' a b :=
  Relation.ReflTransGen.mono (fun _ _ step => ⟨more step.1, step.2⟩) _ _ inward

/-- A search comes to a block through members. -/
theorem Comes.inward (comes : v.Comes first found b) (inside : ∀ m ∈ found.members, v.Inward found.members first m) :
    v.Inward found.members first b := by
  rcases comes with rfl | ⟨m, member, leads⟩
  · exact .refl
  · obtain ⟨arc, leaves, _, target⟩ := mem_forwardSuccs.mp leads
    exact (inside m member).tail ⟨member, arc, leaves, target⟩

theorem Grow.inward (grow : Grow v head first found found') (inside : ∀ m ∈ found.members, v.Inward found.members first m) :
    ∀ m ∈ found'.members, v.Inward found'.members first m := by
  have more {b : Fin n} (comes : v.Comes first found b) :
      ∀ m ∈ found.members ++ [b], v.Inward (found.members ++ [b]) first m := by
    intro m member
    rcases List.mem_append.mp member with old | new
    · exact (inside m old).mono (List.subset_append_left _ _)
    · rw [List.mem_singleton.mp new]
      exact (comes.inward inside).mono (List.subset_append_left _ _)
  cases grow with
  | single comes | enclosed comes => exact more comes
  | stop => rwa [stopAt_members]

theorem Grows.inward (grows : v.Grows head first found found')
    (inside : ∀ m ∈ found.members, v.Inward found.members first m) :
    ∀ m ∈ found'.members, v.Inward found'.members first m := by
  induction grows with
  | refl => exact inside
  | tail _ grow ih => exact grow.inward ih

theorem targets_of_branches {whenTrue whenFalse : Fin n} (ways : v.branches? b = some (whenTrue, whenFalse)) :
    v.targetOf .whenTrue b = some whenTrue ∧ v.targetOf .whenFalse b = some whenFalse := by
  unfold branches? at ways
  split at ways
  · rename_i onTrue onFalse
    cases ways
    exact ⟨onTrue, onFalse⟩
  · cases ways

theorem branchFrom_grows (v : View n) (head first : Fin n) :
    v.Grows head first ⟨[], []⟩ (v.branchFrom head first) :=
  explore_grows _ (.inl rfl)

/-- An edge enters a branch from the head or from a member unless it is a back edge. -/
theorem Oriented.enters_branch (oriented : v.Oriented start reached) {way : Arc n} (leaves : way ∈ v.outs head)
    {m : Fin n} (member : m ∈ (v.branchFrom head way.target).members) {arc : Arc n} (enters : arc ∈ v.ins m)
    (ahead : arc.back = false) : arc.source = head ∨ arc.source ∈ (v.branchFrom head way.target).members := by
  have grows := v.branchFrom_grows head way.target
  rcases grows.closed oriented (by simp [Closed]) m member with rfl | ⟨_, all⟩
  · left
    by_contra elsewhere
    by_cases several : 1 < (v.ins way.target).length
    · exact grows.first_not_mem several enters ahead elsewhere member
    · have same := eq_of_short (Nat.not_lt.mp several) enters (oriented.enters leaves)
      exact elsewhere (same ▸ oriented.source leaves)
  · exact .inr (all arc enters ahead)

end View

namespace Region

variable {n : Nat} {branches : List (Bool × List (Fin n))}

/-- What a branch holds is not changed by the members of other branches. -/
theorem membersOf_foldl_other {taken : Bool} (other : taken ∉ branches.map Prod.fst) (r : Region) :
    (branches.foldl (fun r branch => r.addMembers (.branch branch.1) (branch.2.map Fin.val)) r).membersOf (.branch taken) =
      r.membersOf (.branch taken) := by
  induction branches generalizing r with
  | nil => rfl
  | cons branch rest ih =>
    rw [List.map_cons, List.mem_cons, not_or] at other
    rw [List.foldl_cons, ih other.2]
    exact (r.membersOf_addMembers _ _).2.2 _ fun same => other.1 (Part.branch.inj same)

/-- A branch of a condition holds the blocks that it is given, each once. -/
theorem membersOf_ofBranches (head : Fin n) (kind : CondKind) (follow : Option (Fin n))
    (distinct : (branches.map Prod.fst).Nodup) (taken : Bool) :
    ((ofBranches head kind follow branches).membersOf (.branch taken)).Nodup ∧ ∃ members : List (Fin n),
      (members = [] ∨ (taken, members) ∈ branches) ∧
        ∀ b, b ∈ (ofBranches head kind follow branches).membersOf (.branch taken) ↔ ∃ m ∈ members, m.val = b := by
  have all (r : Region) (none : r.membersOf (.branch taken) = []) :
      let last := branches.foldl (fun r branch => r.addMembers (.branch branch.1) (branch.2.map Fin.val)) r
      (last.membersOf (.branch taken)).Nodup ∧ ∃ members : List (Fin n), (members = [] ∨ (taken, members) ∈ branches) ∧
        ∀ b, b ∈ last.membersOf (.branch taken) ↔ ∃ m ∈ members, m.val = b := by
    induction branches generalizing r with
    | nil =>
      simp only [List.foldl_nil, none]
      exact ⟨List.nodup_nil, [], .inl rfl, by simp⟩
    | cons branch rest ih =>
      obtain ⟨key, members⟩ := branch
      obtain ⟨apart, distinct⟩ := List.nodup_cons.mp distinct
      obtain ⟨added, once, others⟩ := r.membersOf_addMembers (.branch key) (members.map Fin.val)
      simp only [List.foldl_cons]
      by_cases same : taken = key
      · subst same
        rw [membersOf_foldl_other apart]
        refine ⟨once (by simp [none]), members, .inr (.head _), fun b => ?_⟩
        rw [added, none]
        simp
      · obtain ⟨once, members, chosen, holds⟩ := ih distinct _
          ((others _ fun equal => same (Part.branch.inj equal)).trans none)
        exact ⟨once, members, chosen.imp_right (.tail _), holds⟩
  exact all _ rfl

end Region

namespace Graph

variable {g : Graph}

/-- Control gets into the blocks from the head only, apart from back edges, and it gets to each of them through others. -/
structure SingleEntry (g : Graph) (head : BlockId) (members : List BlockId) : Prop where
  once : members.Nodup
  entry (e : EdgeId) (edge : Edge) : g.edges[e]? = some edge → edge.removed = false → edge.back = false →
    edge.target ∈ members → edge.source = head ∨ edge.source ∈ members
  inside (b : BlockId) : b ∈ members → ∃ first, g.Steps head first ∧
    Relation.ReflTransGen (fun a b => a ∈ members ∧ g.Steps a b) first b

theorem SingleEntry.nil (g : Graph) (head : BlockId) : g.SingleEntry head [] :=
  ⟨List.nodup_nil, by simp, by simp⟩

section Reflects

variable {f : Flow g.size} (reflects : g.Reflects f) (wired : g.Wired) {head : Fin g.size}

include reflects wired

theorem Searched.singleEntry (searched : g.Searched) {way : Arc g.size}
    (leaves : way ∈ (View.mk f g.blocks.toVector).outs head) {blocks : List BlockId} (once : blocks.Nodup)
    (listed : ∀ b, b ∈ blocks ↔ ∃ m ∈ ((View.mk f g.blocks.toVector).branchFrom head way.target).members, m.val = b) :
    g.SingleEntry head blocks := by
  have oriented := searched.oriented wired reflects
  refine ⟨once, fun e edge found used ahead entered => ?_, fun b listedAt => ?_⟩
  · obtain ⟨m, member, target⟩ := (listed _).mp entered
    obtain ⟨arc, enters, rfl⟩ := reflects.exists_in wired found used target.symm
    obtain ⟨edge', found', _, source, _, _, marked⟩ := reflects.in_shows m arc enters
    cases found.some_unique found'
    rw [source]
    refine (oriented.enters_branch leaves member enters (marked.symm.trans ahead)).imp (congrArg _) fun inside => ?_
    exact (listed _).mpr ⟨_, inside, rfl⟩
  · obtain ⟨m, member, rfl⟩ := (listed _).mp listedAt
    have inward := ((View.mk f g.blocks.toVector).branchFrom_grows head way.target).inward (by simp) m member
    refine ⟨way.target, (reflects.steps_iff wired head way.target).mp ⟨way, leaves, rfl⟩, inward.lift Fin.val ?_⟩
    intro a b step
    exact ⟨(listed _).mpr ⟨a, step.1, rfl⟩, (reflects.steps_iff wired a b).mp step.2⟩

/-- Each branch of a condition is entered from its head. -/
theorem Searched.condRegion_singleEntry (searched : g.Searched) {whenTrue whenFalse : Fin g.size}
    (onTrue : (View.mk f g.blocks.toVector).targetOf .whenTrue head = some whenTrue)
    (onFalse : (View.mk f g.blocks.toVector).targetOf .whenFalse head = some whenFalse) (taken : Bool) :
    g.SingleEntry head
      (((View.mk f g.blocks.toVector).condRegion head whenTrue whenFalse).1.membersOf (.branch taken)) := by
  obtain ⟨one, leaves, _, rfl⟩ := View.mem_of_targetOf onTrue
  obtain ⟨two, leaves', _, rfl⟩ := View.mem_of_targetOf onFalse
  have each {branches : List (Bool × List (Fin g.size))} (kind : CondKind) (follow : Option (Fin g.size))
      (distinct : (branches.map Prod.fst).Nodup)
      (ways : ∀ branch ∈ branches, ∃ way ∈ (View.mk f g.blocks.toVector).outs head,
        branch.2 = ((View.mk f g.blocks.toVector).branchFrom head way.target).members) :
      g.SingleEntry head ((Region.ofBranches head kind follow branches).membersOf (.branch taken)) := by
    obtain ⟨once, members, chosen, listed⟩ := Region.membersOf_ofBranches head kind follow distinct taken
    rcases chosen with rfl | member
    · have none : (Region.ofBranches head kind follow branches).membersOf (.branch taken) = [] :=
        List.eq_nil_iff_forall_not_mem.mpr fun b member => by simpa using (listed b).mp member
      rw [none]
      exact .nil g head
    · obtain ⟨way, leaves, same⟩ := ways _ member
      exact searched.singleEntry reflects wired leaves once (same ▸ listed)
  have ways {first second : Fin g.size}
      (order : first = one.target ∧ second = two.target ∨ first = two.target ∧ second = one.target) :
      (∃ way ∈ (View.mk f g.blocks.toVector).outs head, way.target = first) ∧
        ∃ way ∈ (View.mk f g.blocks.toVector).outs head, way.target = second := by
    rcases order with ⟨rfl, rfl⟩ | ⟨rfl, rfl⟩
    · exact ⟨⟨one, leaves, rfl⟩, ⟨two, leaves', rfl⟩⟩
    · exact ⟨⟨two, leaves', rfl⟩, ⟨one, leaves, rfl⟩⟩
  rcases (View.mk f g.blocks.toVector).condRegion_cases head one.target two.target with
    ⟨first, second, kind, key, order, same⟩ | ⟨first, second, kind, key, order, _, same⟩ | same
  · obtain ⟨⟨way, leaves, rfl⟩, _⟩ := ways order
    rw [same]
    exact each kind _ (by simp) (by simpa using ⟨way, leaves, rfl⟩)
  · obtain ⟨⟨way, leaves, rfl⟩, ⟨way', leaves', rfl⟩⟩ := ways order
    rw [same]
    exact each kind _ (by simp) (by simpa using ⟨⟨way, leaves, rfl⟩, ⟨way', leaves', rfl⟩⟩)
  · rw [same]
    exact .nil g head

end Reflects

/-- The conditions that the search for regions has found are entered as they were made. -/
theorem Searched.findRegions_singleEntry (searched : g.Searched) (wired : g.Wired) {found : Graph} {notes : List Diagnostic}
    (run : g.findRegions = .ok (found, notes)) {r : Region} (member : r ∈ found.regions) (isCond : r.isCond = true)
    (taken : Bool) : g.SingleEntry r.head (r.membersOf (.branch taken)) := by
  obtain ⟨f, order, early, last, _, reflects, _, _, finds, rfl⟩ := searched.findRegions_finds wired run
  have all := View.findAll_keeps (P := fun known => ∀ r ∈ known.regions, r.isCond = true → ∀ taken,
    g.SingleEntry r.head (r.membersOf (.branch taken))) (fun b _ known region notes kept adds => ?_) (by simp) finds
  · exact all r member isCond taken
  · intro r member isCond taken
    rcases List.mem_append.mp member with old | new
    · exact kept r old isCond taken
    · rw [List.mem_singleton.mp new] at isCond ⊢
      cases adds with
      | loop => cases (View.loopRegion_isLoop _ b).symm.trans (Region.not_isLoop_of_isCond isCond)
      | sync => cases (View.syncRegion_isCond _ b).symm.trans isCond
      | switch run => cases (View.switchRegion_isCond run).symm.trans isCond
      | cond ways =>
        obtain ⟨onTrue, onFalse⟩ := View.targets_of_branches ways
        have entered := searched.condRegion_singleEntry reflects wired onTrue onFalse taken
        rwa [← (View.Adds.cond ways).head] at entered

/-- After a search in depth, whatever the order of the edges, the search of a branch ends, and each branch of a condition is
entered from its head. -/
theorem findRegions_branches_singleEntry {before g : Graph} (wired : before.Wired) (numbered : before.renumber = .ok g) :
    ∃ v found notes, g.view = .ok v ∧ g.findRegions = .ok (found, notes) ∧
      (∀ head b found, v.Runs head b found (v.growBranch head b found)) ∧
      (∀ b head, v.flow.hasPred b head = true ↔ Relation.TransGen v.flow.Enters head b) ∧
      (∀ head whenTrue whenFalse, v.targetOf .whenTrue head = some whenTrue → v.targetOf .whenFalse head = some whenFalse →
        ∀ taken, g.SingleEntry head ((v.condRegion head whenTrue whenFalse).1.membersOf (.branch taken))) ∧
      ∀ r ∈ found.regions, r.isCond = true → ∀ taken, g.SingleEntry r.head (r.membersOf (.branch taken)) := by
  obtain ⟨renumbered, searched⟩ := wired.searched numbered
  have wired' := renumbered.wired wired
  obtain ⟨found, notes, run, _⟩ := searched.findRegions wired'
  obtain ⟨f, _, _, _, flowed, reflects, _⟩ := searched.findRegions_finds wired' run
  have viewed : g.view = .ok ⟨f, g.blocks.toVector⟩ := by
    rw [view, flowed]
    rfl
  exact ⟨_, found, notes, viewed, run, View.growBranch_runs _, Flow.hasPred_iff f,
    fun _ _ _ onTrue onFalse => searched.condRegion_singleEntry reflects wired' onTrue onFalse,
    fun _ member isCond => searched.findRegions_singleEntry wired' run member isCond⟩

end Graph

namespace MethodInput

/-- A condition with two branches, of which one is a condition again. -/
def forked : MethodInput where
  info := MethodInfo.plain "forked" 2 1
  ops := [⟨0, 0, -1, .load .int 0⟩, ⟨1, 0, -1, .jumpZero .int .eq 6⟩, ⟨2, 0, -1, .load .int 1⟩,
    ⟨3, 0, -1, .jumpZero .int .eq 5⟩, ⟨4, 0, -1, .inc .int 0 1⟩, ⟨5, 0, -1, .goto 7⟩, ⟨6, 0, -1, .inc .int 1 1⟩,
    ⟨7, 0, -1, .leave .void⟩]
  exceptions := []

end MethodInput

namespace Graph

theorem findRegions_branches_singleEntry_forked : ∃ (before g found : Graph) (notes : List Diagnostic), before.Wired ∧
    before.renumber = .ok g ∧ g.findRegions = .ok (found, notes) ∧ ∃ r ∈ found.regions, r.isCond = true ∧
      r.membersOf (.branch true) = [4] ∧ r.membersOf (.branch false) = [1, 2, 3] ∧ g.SingleEntry 0 [4] ∧
        g.SingleEntry 0 [1, 2, 3] := by
  have shaped : (MethodInput.forked.decompile ⟨.none, {}⟩).toOption.any fun d => d.graph.any fun last =>
      last.renumber.toOption.any fun g => g.findRegions.toOption.any fun r => r.1.regions.any fun r => r.isCond = true ∧
        r.head = 0 ∧ r.membersOf (.branch true) = [4] ∧ r.membersOf (.branch false) = [1, 2, 3] := by decide +kernel
  obtain ⟨g₀, g₁, built, solved⟩ :=
    Graph.solves_of_isSome (show (Graph.solved? MethodInput.forked {}).isSome by decide +kernel)
  obtain ⟨d, _, last, notes, run, atGraph, wired, searched, regions⟩ :=
    @MethodInput.decompile_findRegions .forked ⟨.none, {}⟩ g₀ g₁ built solved
  obtain ⟨_, _, _, _, _, same⟩ := searched.findRegions_tally wired regions
  have wired' : last.Wired := by
    rw [same]
    exact ⟨wired.1, wired.2, wired.3, wired.4, wired.5⟩
  obtain ⟨_, run', shaped⟩ := of_any_toOption shaped
  cases Except.ok.inj (run.symm.trans run')
  rw [atGraph, Option.any_some] at shaped
  obtain ⟨g, numbered, shaped⟩ := of_any_toOption shaped
  obtain ⟨_, found, notes, _, finds, _, _, _, entered⟩ := findRegions_branches_singleEntry wired' numbered
  rw [finds] at shaped
  obtain ⟨r, member, shape⟩ := List.any_eq_true.mp shaped
  obtain ⟨isCond, atHead, onTrue, onFalse⟩ := of_decide_eq_true shape
  have entered := entered r member isCond
  rw [atHead] at entered
  exact ⟨last, g, found, notes, wired', numbered, finds, r, member, isCond, onTrue, onFalse, onTrue ▸ entered true,
    onFalse ▸ entered false⟩

end Graph

end Unstack
