import Unstack.Proofs.Region.Oriented
import Unstack.Region.Branch

namespace Unstack.View

variable {n : Nat} {v : View n} {start head first : Fin n} {reached : Fin n → Prop} {found found' : Branch n}
  {b : Fin n} {members members' : List (Fin n)} {arc : Arc n}

/-- A search that begins at `first` may come to the block. -/
def Comes (v : View n) (first : Fin n) (found : Branch n) (b : Fin n) : Prop :=
  b = first ∨ ∃ m ∈ found.members, b ∈ v.flow.forwardSuccs m

/-- One thing that a search of a branch may find. -/
inductive Grow (v : View n) (head first : Fin n) (found : Branch n) : Branch n → Prop where
  | single {b : Fin n} : v.Comes first found b → b ∉ found.members → (v.ins b).length ≤ 1 →
    Grow v head first found { found with members := found.members ++ [b] }
  | enclosed {b : Fin n} : v.Comes first found b → b ∉ found.members → v.outsider? head found.members b = none →
    Grow v head first found ⟨found.members ++ [b], found.follows.filter (· != b)⟩
  | stop {b : Fin n} {arc : Arc n} : v.Comes first found b → b ∉ found.members → 1 < (v.ins b).length →
    v.outsider? head found.members b = some arc → Grow v head first found (v.stopAt head found b arc.source)

abbrev Grows (v : View n) (head first : Fin n) : Branch n → Branch n → Prop := Relation.ReflTransGen (Grow v head first)

theorem stopAt_members (v : View n) (head : Fin n) (found : Branch n) (b source : Fin n) :
    (v.stopAt head found b source).members = found.members := by
  unfold stopAt
  split
  · rfl
  · split <;> rfl

theorem mem_stopAt_follows {source f : Fin n} (member : f ∈ (v.stopAt head found b source).follows) :
    f ∈ found.follows ∨ f = b := by
  unfold stopAt at member
  split at member
  · exact .inl member
  · split at member
    · exact .inl member
    · simpa using member

theorem Grow.members_subset (grow : Grow v head first found found') : found.members ⊆ found'.members := by
  cases grow with
  | single | enclosed => exact List.subset_append_left _ _
  | stop =>
    rw [stopAt_members]
    exact fun _ => id

theorem Grows.members_subset (grows : v.Grows head first found found') : found.members ⊆ found'.members := by
  induction grows with
  | refl => exact fun _ => id
  | tail _ grow ih => exact fun _ member => grow.members_subset (ih member)

theorem Comes.mono (comes : v.Comes first found b) (more : found.members ⊆ found'.members) :
    v.Comes first found' b := by
  rcases comes with same | ⟨m, member, leads⟩
  · exact .inl same
  · exact .inr ⟨m, more member, leads⟩

/-- By induction on the fuel. -/
theorem explore_grows (fuel : Nat) (comes : v.Comes first found b) :
    v.Grows head first found (v.explore head fuel b found) := by
  induction fuel generalizing b found with
  | zero => exact .refl
  | succ fuel ih =>
    -- what is behind a member is searched from left to right
    have descend (found' : Branch n) (member : b ∈ found'.members) (succs : List (Fin n))
        (behind : succs ⊆ v.flow.forwardSuccs b) :
        v.Grows head first found' (succs.foldl
          (fun found succ => if found.members.contains succ then found else v.explore head fuel succ found) found') := by
      induction succs generalizing found' with
      | nil => exact .refl
      | cons succ rest ihRest =>
        obtain ⟨here, later⟩ := List.cons_subset.mp behind
        rw [List.foldl_cons]
        split
        · exact ihRest found' member later
        · have step : v.Grows head first found' (v.explore head fuel succ found') := ih (.inr ⟨b, member, here⟩)
          exact step.trans (ihRest _ (step.members_subset member) later)
    rw [explore]
    split
    · rename_i known
      exact descend found (by simpa using known) _ fun _ => id
    · rename_i new
      have new : b ∉ found.members := by simpa using new
      split
      · rename_i alone
        exact .head (.single comes new alone) (descend _ (by simp) _ fun _ => id)
      · rename_i several
        split
        · rename_i arc outside
          exact .single (.stop comes new (by omega) outside)
        · rename_i none
          exact .head (.enclosed comes new none) (descend _ (by simp) _ fun _ => id)

/-- The block is the first one, or forward edges lead to it from members and from nowhere else. -/
def Enclosed (v : View n) (first : Fin n) (members : List (Fin n)) (b : Fin n) : Prop :=
  b = first ∨ (∃ arc ∈ v.ins b, arc.back = false ∧ arc.source ∈ members) ∧
    ∀ arc ∈ v.ins b, arc.back = false → arc.source ∈ members

/-- Control gets into the branch through its first block only. -/
def Closed (v : View n) (first : Fin n) (members : List (Fin n)) : Prop := ∀ m ∈ members, v.Enclosed first members m

/-- The blocks are behind the head. -/
def Behind (v : View n) (reached : Fin n → Prop) (head : Fin n) (blocks : List (Fin n)) : Prop :=
  ∀ b ∈ blocks, reached b ∧ v.number b < v.number head

theorem Enclosed.mono (enclosed : v.Enclosed first members b) (more : members ⊆ members') :
    v.Enclosed first members' b := by
  rcases enclosed with same | ⟨⟨arc, enters, ahead, inside⟩, all⟩
  · exact .inl same
  · exact .inr ⟨⟨arc, enters, ahead, more inside⟩, fun arc enters ahead => more (all arc enters ahead)⟩

theorem Closed.append (closed : v.Closed first members) (enclosed : v.Enclosed first members b) :
    v.Closed first (members ++ [b]) :=
  forall_mem_snoc (fun m old => (closed m old).mono (List.subset_append_left _ _))
    (enclosed.mono (List.subset_append_left _ _))

section Oriented

variable (oriented : v.Oriented start reached)

include oriented

theorem Oriented.entry (comes : v.Comes first found b) (other : b ≠ first) :
    ∃ arc ∈ v.ins b, arc.back = false ∧ arc.source ∈ found.members := by
  obtain ⟨m, member, leads⟩ := comes.resolve_left other
  obtain ⟨arc, leaves, ahead, rfl⟩ := mem_forwardSuccs.mp leads
  exact ⟨arc, oriented.enters leaves, ahead, oriented.source leaves ▸ member⟩

theorem Grow.closed (grow : Grow v head first found found') (closed : v.Closed first found.members) :
    v.Closed first found'.members := by
  cases grow with
  | @single b comes _ alone =>
    refine closed.append ?_
    by_cases same : b = first
    · exact .inl same
    · obtain ⟨arc, enters, ahead, inside⟩ := oriented.entry comes same
      refine .inr ⟨⟨arc, enters, ahead, inside⟩, fun other enters' _ => ?_⟩
      rwa [eq_of_short alone enters' enters]
  | @enclosed b comes _ none =>
    refine closed.append ?_
    by_cases same : b = first
    · exact .inl same
    · obtain ⟨arc, enters, ahead, inside⟩ := oriented.entry comes same
      refine .inr ⟨⟨arc, enters, ahead, inside⟩, fun other enters' ahead' => ?_⟩
      have notEmpty : found.members ≠ [] := List.ne_nil_of_mem inside
      have known := List.find?_eq_none.mp none other enters'
      simpa [ahead', notEmpty] using known
  | stop => rwa [stopAt_members]

theorem Comes.behind (comes : v.Comes first found b) (ahead : reached first ∧ v.number first < v.number head)
    (behind : v.Behind reached head found.members) : reached b ∧ v.number b < v.number head := by
  rcases comes with rfl | ⟨m, member, leads⟩
  · exact ahead
  · obtain ⟨arc, leaves, forward, rfl⟩ := mem_forwardSuccs.mp leads
    obtain ⟨reachedM, lower⟩ := behind m member
    exact ⟨oriented.onward reachedM leaves, (oriented.forward reachedM leaves forward).trans lower⟩

theorem Grow.behind (grow : Grow v head first found found') (ahead : reached first ∧ v.number first < v.number head)
    (behind : v.Behind reached head found.members) : v.Behind reached head found'.members := by
  have more {b : Fin n} (comes : v.Comes first found b) : v.Behind reached head (found.members ++ [b]) :=
    forall_mem_snoc behind (comes.behind oriented ahead behind)
  cases grow with
  | single comes | enclosed comes => exact more comes
  | stop => rwa [stopAt_members]

theorem Grows.closed (grows : v.Grows head first found found') (closed : v.Closed first found.members) :
    v.Closed first found'.members := by
  induction grows with
  | refl => exact closed
  | tail _ grow ih => exact grow.closed oriented ih

theorem Grows.behind (grows : v.Grows head first found found') (ahead : reached first ∧ v.number first < v.number head)
    (behind : v.Behind reached head found.members) : v.Behind reached head found'.members := by
  induction grows with
  | refl => exact behind
  | tail _ grow ih => exact grow.behind oriented ahead ih

end Oriented

/-- A follow is entered by several edges, the search has come to it, and it is not among the members, unless it was both
before. -/
theorem Grows.follows (grows : v.Grows head first found found') (wide : ∀ f ∈ found.follows, 1 < (v.ins f).length)
    {f : Fin n} (member : f ∈ found'.follows) :
    1 < (v.ins f).length ∧ (f ∈ found.follows ∨ v.Comes first found' f) ∧
      (f ∈ found'.members → f ∈ found.members ∧ f ∈ found.follows) := by
  induction grows with
  | refl => exact ⟨wide f member, .inl member, fun inside => ⟨inside, member⟩⟩
  | @tail mid _ before grow ih =>
    have more := grow.members_subset
    cases grow with
    | @single b comes new alone =>
      obtain ⟨several, origin, old⟩ := ih member
      refine ⟨several, origin.imp_right fun comes => comes.mono more, fun inside => ?_⟩
      rcases List.mem_append.mp inside with inside | last
      · exact old inside
      · rw [List.mem_singleton.mp last] at several
        omega
    | @enclosed b comes new none =>
      obtain ⟨member, other⟩ := List.mem_filter.mp member
      obtain ⟨several, origin, old⟩ := ih member
      refine ⟨several, origin.imp_right fun comes => comes.mono more, fun inside => ?_⟩
      rcases List.mem_append.mp inside with inside | last
      · exact old inside
      · rw [List.mem_singleton.mp last] at other
        simp at other
    | @stop b arc comes new several outside =>
      rw [stopAt_members]
      rcases mem_stopAt_follows member with earlier | rfl
      · obtain ⟨several, origin, old⟩ := ih earlier
        exact ⟨several, origin.imp_right fun comes => comes.mono more, old⟩
      · exact ⟨several, .inr (comes.mono more), fun inside => absurd inside new⟩

/-- A search that does not take its first block finds nothing else. -/
theorem Grows.stops (grows : v.Grows head first ⟨[], []⟩ found) (outside : first ∉ found.members) :
    found.members = [] ∧ ∀ f ∈ found.follows, f = first := by
  induction grows with
  | refl => simp
  | @tail mid _ _ grow ih =>
    obtain ⟨none, same⟩ := ih fun inside => outside (grow.members_subset inside)
    have atFirst {b : Fin n} (comes : v.Comes first mid b) : b = first := by simpa [Comes, none] using comes
    cases grow with
    | single comes | enclosed comes =>
      rw [atFirst comes] at outside
      simp at outside
    | stop comes =>
      refine ⟨by rw [stopAt_members, none], fun f member => ?_⟩
      rcases mem_stopAt_follows member with earlier | last
      · exact same f earlier
      · exact last.trans (atFirst comes)

/-- A search does not take its first block if that is entered from elsewhere. -/
theorem Grows.first_not_mem (grows : v.Grows head first ⟨[], []⟩ found) (several : 1 < (v.ins first).length)
    (enters : arc ∈ v.ins first) (ahead : arc.back = false) (elsewhere : arc.source ≠ head) : first ∉ found.members := by
  induction grows with
  | refl => simp
  | @tail mid _ before grow ih =>
    have none := (Grows.stops before ih).1
    cases grow with
    | @single b _ _ alone =>
      rw [none, List.nil_append, List.mem_singleton]
      rintro rfl
      omega
    | @enclosed b _ _ inside =>
      rw [none, List.nil_append, List.mem_singleton]
      rintro rfl
      have known := List.find?_eq_none.mp inside arc enters
      simp [ahead, elsewhere, none] at known
    | stop =>
      rw [stopAt_members]
      exact ih

section Oriented

variable (oriented : v.Oriented start reached) (atHead : reached head)

include oriented atHead

/-- A block that an edge goes back to is entered from before the head, unless it is the start. -/
theorem Oriented.other_entry (leaves : arc ∈ v.outs head) (goesBack : arc.back = true) (notStart : arc.target ≠ start) :
    1 < (v.ins arc.target).length ∧ ∃ other ∈ v.ins arc.target, other.back = false ∧ v.number head < v.number other.source := by
  obtain ⟨other, enters, ahead, reachedSource⟩ :=
    (oriented.parent (oriented.onward atHead leaves)).resolve_left notStart
  have lower := oriented.forward reachedSource (oriented.leaves enters) ahead
  have higher := oriented.back leaves goesBack
  rw [oriented.target enters] at lower
  refine ⟨?_, other, enters, ahead, by omega⟩
  by_contra few
  have same := eq_of_short (Nat.not_lt.mp few) enters (oriented.enters leaves)
  rw [same, goesBack] at ahead
  cases ahead

/-- The branch behind an edge of the head lies behind the head and is entered at its first block only, unless it holds the
start. What may follow on it is neither in it nor the head. -/
theorem Oriented.branchFrom (leaves : arc ∈ v.outs head) (notHead : arc.target ≠ head)
    (outside : start ∉ (v.branchFrom head arc.target).members) :
    v.Closed arc.target (v.branchFrom head arc.target).members ∧
      v.Behind reached head (v.branchFrom head arc.target).members ∧
      ∀ f ∈ (v.branchFrom head arc.target).follows, f ∉ (v.branchFrom head arc.target).members ∧ f ≠ head := by
  have grows : v.Grows head arc.target ⟨[], []⟩ (v.branchFrom head arc.target) := explore_grows _ (.inl rfl)
  cases direction : arc.back with
  | false =>
    have ahead : reached arc.target ∧ v.number arc.target < v.number head :=
      ⟨oriented.onward atHead leaves, oriented.forward atHead leaves direction⟩
    have behind := grows.behind oriented ahead (by simp [Behind])
    refine ⟨grows.closed oriented (by simp [Closed]), behind, fun f member => ?_⟩
    obtain ⟨_, origin, inside⟩ := grows.follows (by simp) member
    refine ⟨fun among => by simpa using inside among, ?_⟩
    rintro rfl
    exact Nat.lt_irrefl _ ((origin.resolve_left (by simp)).behind oriented ahead behind).2
  | true =>
    have first : arc.target ∉ (v.branchFrom head arc.target).members := by
      by_cases atStart : arc.target = start
      · rw [atStart] at outside ⊢
        exact outside
      · obtain ⟨several, other, enters, ahead, higher⟩ := oriented.other_entry atHead leaves direction atStart
        refine grows.first_not_mem several enters ahead fun same => ?_
        rw [same] at higher
        exact Nat.lt_irrefl _ higher
    obtain ⟨none, only⟩ := grows.stops first
    rw [none]
    refine ⟨by simp [Closed], by simp [Behind], fun f member => ⟨by simp, ?_⟩⟩
    rw [only f member]
    exact notHead

omit atHead in
/-- A branch holds no target of an edge of the head but its first block. -/
theorem Oriented.target_not_mem (leaves : arc ∈ v.outs head) (closed : v.Closed first members)
    (behind : v.Behind reached head members) (other : arc.target ≠ first) : arc.target ∉ members := by
  intro inside
  cases direction : arc.back with
  | true =>
    have higher := oriented.back leaves direction
    have lower := (behind _ inside).2
    omega
  | false =>
    have all := ((closed _ inside).resolve_left other).2
    have atSource := all arc (oriented.enters leaves) direction
    rw [oriented.source leaves] at atSource
    exact Nat.lt_irrefl _ (behind _ atSource).2

omit atHead in
/-- Branches of which neither holds the first block of the other have no block in common. -/
theorem Oriented.disjoint {first' : Fin n} (closed : v.Closed first members) (closed' : v.Closed first' members')
    (behind : v.Behind reached head members) (apart : first ∉ members') (apart' : first' ∉ members) :
    members.Disjoint members' := by
  -- from a common block one gets to a common block before it, up to the head
  have none (distance : Nat) (b : Fin n) (near : v.number head - v.number b = distance) (inside : b ∈ members)
      (inside' : b ∈ members') : False := by
    induction distance using Nat.strong_induction_on generalizing b with
    | h distance ih =>
      rcases closed b inside with same | ⟨⟨arc, enters, ahead, source⟩, _⟩
      · exact apart (same ▸ inside')
      · rcases closed' b inside' with same | ⟨_, all⟩
        · exact apart' (same ▸ inside)
        · obtain ⟨reachedSource, below⟩ := behind _ source
          have lower := oriented.forward reachedSource (oriented.leaves enters) ahead
          rw [oriented.target enters] at lower
          exact ih _ (by omega) arc.source rfl source (all arc enters ahead)
  exact fun b inside inside' => none _ b rfl inside inside'

end Oriented

end Unstack.View
