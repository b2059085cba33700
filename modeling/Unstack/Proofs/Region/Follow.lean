import Unstack.Proofs.Decompile
import Unstack.Proofs.Recovery.Complete
import Unstack.Proofs.Region.CaseSearch
import Unstack.Proofs.Region.LoopMembers
import Unstack.Proofs.Region.SyncBody

namespace Unstack

namespace Region

def Holds (r : Region) (b : BlockId) : Prop := ∃ m ∈ r.members, b ∈ m.2

theorem isMember_eq_false_iff {r : Region} {b : BlockId} : r.isMember b = false ↔ b ≠ r.head ∧ ¬ r.Holds b := by
  simp only [isMember, Holds, Bool.or_eq_false_iff, beq_eq_false_iff_ne, List.any_eq_false, List.contains_eq_mem,
    decide_eq_true_eq, not_exists, not_and, ne_comm]

theorem mem_changePart {part : Part} {change : List BlockId → List BlockId} {b added : BlockId}
    (adds : ∀ blocks, b ∈ change blocks ↔ b ∈ blocks ∨ b = added) (members : List (Part × List BlockId)) :
    (∃ m ∈ changePart part change members, b ∈ m.2) ↔ (∃ m ∈ members, b ∈ m.2) ∨ b = added := by
  induction members with
  | nil => simp [changePart, adds]
  | cons m rest ih =>
    rw [changePart]
    split
    · simp only [List.exists_mem_cons_iff, adds, or_right_comm]
    · simp only [List.exists_mem_cons_iff, ih, or_assoc]

theorem holds_addMembers (r : Region) (part : Part) (blocks : List BlockId) (b : BlockId) :
    (r.addMembers part blocks).Holds b ↔ r.Holds b ∨ b ∈ blocks := by
  induction blocks generalizing r with
  | nil => simp [addMembers]
  | cons added rest ih =>
    have one : (r.addMember part added).Holds b ↔ r.Holds b ∨ b = added := by
      refine mem_changePart (fun blocks => ?_) r.members
      split
      · rename_i known
        have known : added ∈ blocks := by simpa using known
        exact ⟨.inl, fun either => either.elim id fun same => same ▸ known⟩
      · simp
    have all := ih (r.addMember part added)
    rw [one] at all
    rw [List.mem_cons, ← or_assoc]
    exact all

theorem addMembers_same (r : Region) (part : Part) (blocks : List BlockId) :
    (r.addMembers part blocks).head = r.head ∧ (r.addMembers part blocks).follow = r.follow ∧
      (r.addMembers part blocks).kind = r.kind := by
  induction blocks generalizing r with
  | nil => exact ⟨rfl, rfl, rfl⟩
  | cons added rest ih => exact ih (r.addMember part added)

theorem membersOf_modifyMembers (r : Region) (part : Part) (change : List BlockId → List BlockId) (other : Part) :
    (r.modifyMembers part change).membersOf other =
      if other = part then change (r.membersOf part) else r.membersOf other := by
  simp only [modifyMembers, membersOf]
  induction r.members with
  | nil =>
    by_cases same : other = part
    · simp [changePart, same]
    · simp [changePart, same, Ne.symm same]
  | cons m rest ih =>
    obtain ⟨key, blocks⟩ := m
    rw [changePart]
    by_cases here : key = part
    · subst here
      by_cases same : key = other
      · simp [same]
      · simp [same, Ne.symm same]
    · by_cases same : key = other
      · subst same
        simp [here]
      · simpa [here, same] using ih

theorem membersOf_addMember (r : Region) (part : Part) (b : BlockId) (other : Part) :
    (r.addMember part b).membersOf other =
      if other = part then (if b ∈ r.membersOf part then r.membersOf part else r.membersOf part ++ [b])
      else r.membersOf other := by
  simp [addMember, membersOf_modifyMembers]

/-- Adding members to a part lists each of them once, and it leaves the other parts. -/
theorem membersOf_addMembers (r : Region) (part : Part) (blocks : List BlockId) :
    (∀ b, b ∈ (r.addMembers part blocks).membersOf part ↔ b ∈ r.membersOf part ∨ b ∈ blocks) ∧
      ((r.membersOf part).Nodup → ((r.addMembers part blocks).membersOf part).Nodup) ∧
      ∀ other, other ≠ part → (r.addMembers part blocks).membersOf other = r.membersOf other := by
  induction blocks generalizing r with
  | nil => simp [addMembers]
  | cons added rest ih =>
    obtain ⟨members, once, others⟩ := ih (r.addMember part added)
    have here := r.membersOf_addMember part added part
    rw [if_pos rfl] at here
    refine ⟨fun b => ?_, fun nodup => ?_, fun other different => ?_⟩
    · refine (members b).trans ?_
      rw [here, List.mem_cons, ← or_assoc]
      split
      · rename_i known
        refine or_congr_left ⟨.inl, fun either => either.elim id fun same => same ▸ known⟩
      · simp
    · refine once ?_
      rw [here]
      split
      · exact nodup
      · rename_i new
        exact Graph.nodup_append_fresh nodup new
    · refine (others other different).trans ?_
      rw [membersOf_addMember, if_neg different]

section Branches

variable {n : Nat} (head : Fin n) (kind : CondKind) (follow : Option (Fin n)) (branches : List (Bool × List (Fin n)))

theorem ofBranches_same : (ofBranches head kind follow branches).head = head ∧
    (ofBranches head kind follow branches).follow = follow.map Fin.val ∧
      (ofBranches head kind follow branches).kind = .cond kind := by
  have all (r : Region) :
      let last := branches.foldl (fun r branch => r.addMembers (.branch branch.1) (branch.2.map Fin.val)) r
      last.head = r.head ∧ last.follow = r.follow ∧ last.kind = r.kind := by
    induction branches generalizing r with
    | nil => exact ⟨rfl, rfl, rfl⟩
    | cons branch rest ih =>
      obtain ⟨head, follow, kind⟩ := r.addMembers_same (.branch branch.1) (branch.2.map Fin.val)
      obtain ⟨head', follow', kind'⟩ := ih (r.addMembers (.branch branch.1) (branch.2.map Fin.val))
      exact ⟨head'.trans head, follow'.trans follow, kind'.trans kind⟩
  exact all _

theorem holds_ofBranches (b : Fin n) : (ofBranches head kind follow branches).Holds b ↔ ∃ branch ∈ branches, b ∈ branch.2 := by
  have all (r : Region) :
      (branches.foldl (fun r branch => r.addMembers (.branch branch.1) (branch.2.map Fin.val)) r).Holds b ↔
        r.Holds b ∨ ∃ branch ∈ branches, b ∈ branch.2 := by
    induction branches generalizing r with
    | nil => simp
    | cons branch rest ih =>
      rw [List.foldl_cons, ih, holds_addMembers, List.mem_map_of_injective Fin.val_injective, List.exists_mem_cons_iff,
        or_assoc]
  exact (all _).trans (by simp [Holds, ofHead])

end Branches

end Region

namespace View

variable {n : Nat} {v : View n} {start head : Fin n} {reached : Fin n → Prop} {body : LoopBody n} {whenFalse : Fin n}
  {follow : Option (Fin n)}

/-- Different ways from the block, exceptions apart, lead to different blocks. -/
def Spreads (v : View n) (b : Fin n) : Prop :=
  ∀ one ∈ v.outs b, ∀ two ∈ v.outs b, one.kind.isHandler = false → two.kind.isHandler = false →
    one.target = two.target → one.edge = two.edge

/-- The ways from the block, exceptions apart, lead to different other blocks. -/
def Forks (v : View n) (b : Fin n) : Prop :=
  v.Spreads b ∧ ∀ arc ∈ v.outs b, arc.kind.isHandler = false → arc.target ≠ b

/-- What goes back from the last block of a loop goes to the head, or to a block before the head. -/
def Latches (v : View n) (head last : Fin n) : Prop :=
  v.Spreads last ∧ ∀ arc ∈ v.outs last, arc.kind.isHandler = false → arc.back = true →
    arc.target = head ∨ v.number head < v.number arc.target

/-- No case is the start of the method, and control falls into a case from one other case at most. -/
def FallsOnce (v : View n) (start head : Fin n) (members : List (Part × List BlockId)) : Prop :=
  ∀ arc ∈ v.cases head, arc.target ≠ start ∧ ∀ one ∈ members, ∀ two ∈ members,
    v.Leads (fun b => b.val ∈ one.2) arc.target → v.Leads (fun b => b.val ∈ two.2) arc.target → one.1 = two.1

/-- The conditions under which a region ends before its follow. -/
def Regular (v : View n) (start head : Fin n) (r : Region) : Prop :=
  match r.kind with
  -- the search of a branch does not count the entry to the method
  | .cond _ => v.Forks head ∧ ¬ r.Holds start
  | .loop kind last => kind.isPostTest = true → ∀ l : Fin n, last = some l.val → v.Latches head l
  | .switch _ _ => v.Forks head ∧ v.FallsOnce start head r.members
  -- no block is entered both with the monitor and after it is given up
  | .sync => (∀ arc ∈ v.outs head, arc.kind = .sequence → arc.back = false) ∧
      ∀ b, v.Released head b → ∀ depth, ¬ v.Holds head b depth

instance (v : View n) (b : Fin n) : Decidable (v.Spreads b) := by unfold Spreads; infer_instance

instance (v : View n) (b : Fin n) : Decidable (v.Forks b) := by unfold Forks; infer_instance

instance (v : View n) (head last : Fin n) : Decidable (v.Latches head last) := by unfold Latches; infer_instance

instance (r : Region) (b : BlockId) : Decidable (r.Holds b) := by unfold Region.Holds; infer_instance

/-- The region is found at a block, and if it is regular there, its follow is outside. -/
def FollowOutside (v : View n) (start : Fin n) (r : Region) : Prop :=
  ∃ head : Fin n, r.head = head ∧ (v.Regular start head r → ∀ f, r.follow = some f → r.isMember f = false)

theorem Oriented.eq_of_spreads (oriented : v.Oriented start reached) {b : Fin n} (spreads : v.Spreads b) {one two : Arc n}
    (leaves : one ∈ v.outs b) (leaves' : two ∈ v.outs b) (plain : one.kind.isHandler = false)
    (plain' : two.kind.isHandler = false) (same : one.target = two.target) : one = two :=
  oriented.same (oriented.enters leaves) (same ▸ oriented.enters leaves') (spreads _ leaves _ leaves' plain plain' same)

/-- The region holds one branch and ends before the other, or it holds both and ends where both may go on. -/
theorem condRegion_cases (v : View n) (head whenTrue whenFalse : Fin n) :
    let r := (v.condRegion head whenTrue whenFalse).1
    (∃ first second kind taken, (first = whenTrue ∧ second = whenFalse ∨ first = whenFalse ∧ second = whenTrue) ∧
      r = .ofBranches head kind (some second) [(taken, (v.branchFrom head first).members)]) ∨
    (∃ first second kind taken, (first = whenTrue ∧ second = whenFalse ∨ first = whenFalse ∧ second = whenTrue) ∧
      v.earliest (v.branchFrom head first).follows = v.earliest (v.branchFrom head second).follows ∧
      r = .ofBranches head kind (v.earliest (v.branchFrom head first).follows)
        [(!taken, (v.branchFrom head first).members), (taken, (v.branchFrom head second).members)]) ∨
    r = .ofHead head (.cond .plain) := by
  simp only [condRegion]
  generalize (v.isBefore whenFalse whenTrue || v.isBefore whenTrue head) = negated
  obtain ⟨first, second, order, ways⟩ : ∃ first second,
      (if negated then (whenFalse, whenTrue) else (whenTrue, whenFalse)) = (first, second) ∧
        (first = whenTrue ∧ second = whenFalse ∨ first = whenFalse ∧ second = whenTrue) := by cases negated <;> simp
  rw [order]
  simp only
  split
  · exact .inl ⟨first, second, _, _, ways, rfl⟩
  · split
    · exact .inl ⟨second, first, _, _, ways.symm.imp And.symm And.symm, rfl⟩
    · split
      · rename_i same
        exact .inr (.inl ⟨first, second, _, _, ways, same, rfl⟩)
      · exact .inr (.inr rfl)

theorem ways_of_branches {whenTrue : Fin n} (ways : v.branches? head = some (whenTrue, whenFalse)) :
    ∃ one ∈ v.outs head, ∃ two ∈ v.outs head, one.kind.isHandler = false ∧ two.kind.isHandler = false ∧ one ≠ two ∧
      one.target = whenTrue ∧ two.target = whenFalse := by
  unfold branches? at ways
  split at ways
  · rename_i _ _ _ _ atTrue atFalse
    cases ways
    obtain ⟨one, leaves, kind, target⟩ := mem_of_targetOf atTrue
    obtain ⟨two, leaves', kind', target'⟩ := mem_of_targetOf atFalse
    have unlike : one ≠ two := fun same => by simp [same, kind'] at kind
    exact ⟨one, leaves, two, leaves', by rw [kind]; rfl, by rw [kind']; rfl, unlike, target, target'⟩
  · cases ways

theorem FollowOutside.ofBranches {kind : CondKind} {branches : List (Bool × List (Fin n))}
    (outside : v.Forks head → ¬ (∃ branch ∈ branches, start ∈ branch.2) → ∀ f, follow = some f →
      f ≠ head ∧ ∀ branch ∈ branches, f ∉ branch.2) :
    v.FollowOutside start (.ofBranches head kind follow branches) := by
  obtain ⟨atHead, atFollow, isCond⟩ := Region.ofBranches_same head kind follow branches
  refine ⟨head, atHead, fun regular f chosen => ?_⟩
  simp only [Regular, isCond, Region.holds_ofBranches] at regular
  rw [atFollow] at chosen
  obtain ⟨f, found, rfl⟩ := Option.map_eq_some_iff.mp chosen
  obtain ⟨notHead, notHeld⟩ := outside regular.1 regular.2 f found
  rw [Region.isMember_eq_false_iff, atHead, Region.holds_ofBranches]
  refine ⟨fun same => notHead (Fin.ext same), fun held => ?_⟩
  obtain ⟨branch, member, inside⟩ := held
  exact notHeld branch member inside

/-- The block that follows a branch is in neither of its parts. -/
theorem Oriented.condRegion (oriented : v.Oriented start reached) (atHead : reached head) {whenTrue : Fin n}
    (ways : v.branches? head = some (whenTrue, whenFalse)) :
    v.FollowOutside start (v.condRegion head whenTrue whenFalse).1 := by
  have either {first second : Fin n} (named : first = whenTrue ∧ second = whenFalse ∨ first = whenFalse ∧ second = whenTrue) :
      ∃ one ∈ v.outs head, ∃ two ∈ v.outs head, one.kind.isHandler = false ∧ two.kind.isHandler = false ∧ one ≠ two ∧
        one.target = first ∧ two.target = second := by
    obtain ⟨one, leaves, two, leaves', plain, plain', unlike, target, target'⟩ := ways_of_branches ways
    rcases named with ⟨rfl, rfl⟩ | ⟨rfl, rfl⟩
    · exact ⟨one, leaves, two, leaves', plain, plain', unlike, target, target'⟩
    · exact ⟨two, leaves', one, leaves, plain', plain, unlike.symm, target', target⟩
  rcases v.condRegion_cases head whenTrue whenFalse with ⟨first, second, kind, taken, named, same⟩ |
    ⟨first, second, kind, taken, named, common, same⟩ | same
  · obtain ⟨one, leaves, two, leaves', plain, plain', unlike, rfl, rfl⟩ := either named
    rw [same]
    refine .ofBranches fun forks holds f follow => ?_
    cases follow
    have outside : start ∉ (v.branchFrom head one.target).members := fun inside => holds ⟨_, .head _, inside⟩
    obtain ⟨closed, behind, _⟩ := oriented.branchFrom atHead leaves (forks.2 _ leaves plain) outside
    refine ⟨forks.2 _ leaves' plain', fun branch member => ?_⟩
    rw [List.mem_singleton.mp member]
    exact oriented.target_not_mem leaves' closed behind fun equal =>
      unlike (oriented.eq_of_spreads forks.1 leaves leaves' plain plain' equal.symm)
  · obtain ⟨one, leaves, two, leaves', plain, plain', _, rfl, rfl⟩ := either named
    rw [same]
    refine .ofBranches fun forks holds f follow => ?_
    have outside : start ∉ (v.branchFrom head one.target).members := fun inside => holds ⟨_, .head _, inside⟩
    have outside' : start ∉ (v.branchFrom head two.target).members := fun inside =>
      holds ⟨_, .tail _ (.head _), inside⟩
    obtain ⟨_, _, follows⟩ := oriented.branchFrom atHead leaves (forks.2 _ leaves plain) outside
    obtain ⟨_, _, follows'⟩ := oriented.branchFrom atHead leaves' (forks.2 _ leaves' plain') outside'
    obtain ⟨notFirst, notHead⟩ := follows f (mem_of_earliest follow)
    obtain ⟨notSecond, _⟩ := follows' f (mem_of_earliest (common.symm.trans follow))
    refine ⟨notHead, fun branch member => ?_⟩
    rcases List.mem_cons.mp member with rfl | member
    · exact notFirst
    · rw [List.mem_singleton.mp member]
      exact notSecond
  · rw [same]
    exact ⟨head, rfl, fun _ f follow => by cases follow⟩

/-- A region with a body has its follow outside if the body does not hold it. -/
theorem FollowOutside.ofBody {kind : RegionKind} {members : List (Fin n)}
    (outside : ∀ r : Region, r.kind = kind → v.Regular start head r → ∀ f, follow = some f → f ≠ head ∧ f ∉ members) :
    v.FollowOutside start
      ({ Region.ofHead head kind with follow := follow.map Fin.val }.addMembers .body (members.map Fin.val)) := by
  obtain ⟨atHead, atFollow, isKind⟩ :=
    { Region.ofHead head kind with follow := follow.map Fin.val }.addMembers_same .body (members.map Fin.val)
  refine ⟨head, atHead, fun regular f chosen => ?_⟩
  rw [atFollow] at chosen
  obtain ⟨f, found, rfl⟩ := Option.map_eq_some_iff.mp chosen
  obtain ⟨notHead, notHeld⟩ := outside _ isKind regular f found
  rw [Region.isMember_eq_false_iff, atHead, Region.holds_addMembers, List.mem_map_of_injective Fin.val_injective]
  refine ⟨fun same => notHead (Fin.ext same), fun held => ?_⟩
  rcases held with earlier | inside
  · simp [Region.Holds, Region.ofHead] at earlier
  · exact notHeld inside

theorem headTest_outside {kind : LoopKind} {f : Fin n} (test : v.headTest? head body = some (kind, f)) :
    f ≠ head ∧ f ∉ body.members := by
  simp only [headTest?] at test
  split at test
  · split at test
    · split at test
      · cases test
        simp_all
      · split at test
        · cases test
          simp_all
        · cases test
    · cases test
  · cases test

/-- If the last block of a loop tests its condition, one way from there is to the head and the other one to the follow. -/
theorem ways_of_lastTest {kind : LoopKind} {f : Fin n} (test : v.lastTest? head body = some (kind, f)) :
    kind.isPostTest = true ∧ ∃ l, body.last = some l ∧ ∃ one ∈ v.outs l, ∃ two ∈ v.outs l, one.kind.isHandler = false ∧
      two.kind.isHandler = false ∧ one ≠ two ∧ one.target = head ∧ two.target = f := by
  unfold lastTest? at test
  split at test
  · rename_i whenTrue whenFalse ways
    obtain ⟨l, last, ways⟩ := Option.bind_eq_some_iff.mp ways
    obtain ⟨one, leaves, two, leaves', plain, plain', unlike, target, target'⟩ := ways_of_branches ways
    split at test
    · rename_i back
      cases test
      exact ⟨rfl, l, last, one, leaves, two, leaves', plain, plain', unlike, target.trans back, target'⟩
    · split at test
      · rename_i back
        cases test
        exact ⟨rfl, l, last, two, leaves', one, leaves, plain', plain, unlike.symm, target'.trans back, target⟩
      · cases test
  · cases test

theorem loopTest_cases {test : LoopKind × Fin n} (found : (v.loopTest head body).1 = some test) :
    v.headTest? head body = some test ∨ v.lastTest? head body = some test := by
  unfold loopTest at found
  split at found
  · exact .inl (found ▸ ‹_›)
  · exact .inr (found ▸ ‹_›)
  · cases found
  · split at found
    · exact .inr (found ▸ ‹_›)
    · split at found
      · exact .inl (found ▸ ‹_›)
      · exact .inl (found ▸ ‹_›)

theorem Oriented.loopRegion (oriented : v.Oriented start reached) (atHead : reached head) :
    v.FollowOutside start (v.loopRegion head).1 := by
  rcases found : v.loopTest head (v.loopBody head) with ⟨test, notes⟩
  simp only [View.loopRegion, found]
  cases test with
  | none => exact .ofBody fun _ _ _ _ follow => by cases follow
  | some test =>
    refine .ofBody fun r isLoop regular f follow => ?_
    cases follow
    rcases loopTest_cases (congrArg Prod.fst found) with atFirst | atLast
    · exact headTest_outside atFirst
    · obtain ⟨isPostTest, l, last, one, leaves, two, leaves', plain, plain', unlike, back, target⟩ := ways_of_lastTest atLast
      simp only [Regular, isLoop, last, Option.map_some] at regular
      obtain ⟨spreads, returns⟩ := regular isPostTest l rfl
      have notHead : two.target ≠ head := fun same =>
        unlike (oriented.eq_of_spreads spreads leaves leaves' plain plain' (back.trans same.symm))
      rw [← target]
      refine ⟨notHead, fun inside => ?_⟩
      cases direction : two.back with
      | false =>
        obtain ⟨_, _, outside⟩ := (oriented.loopBody_last atHead).1 l last
        exact (outside _ ⟨two, leaves', plain', direction, rfl⟩).2 inside
      | true =>
        have higher := (returns two leaves' plain' direction).resolve_left notHead
        have lower := oriented.member_le atHead inside
        omega

theorem Oriented.switchRegion (oriented : v.Oriented start reached) (atHead : reached head) {r : Region}
    (run : v.switchRegion head = .ok r) : v.FollowOutside start r := by
  obtain ⟨c, settled, made⟩ := bind_eq_ok.mp run
  cases made
  refine ⟨head, rfl, fun regular f follow => ?_⟩
  obtain ⟨forks, entered⟩ := regular
  obtain ⟨f, found, rfl⟩ := Option.map_eq_some_iff.mp follow
  have plain {arc : Arc n} (isCase : arc ∈ v.cases head) : arc.kind.isHandler = false := by
    have kind := (List.mem_filter.mp isCase).2
    cases isKind : arc.kind <;> simp_all [EdgeKind.isSwitchCase, EdgeKind.labels?, EdgeKind.isHandler]
  have distinct (one : Arc n) (isCase : one ∈ v.cases head) (two : Arc n) (isCase' : two ∈ v.cases head)
      (same : one.target = two.target) : one.edge = two.edge :=
    forks.1 _ (leaves_of_mem_cases isCase) _ (leaves_of_mem_cases isCase') (plain isCase) (plain isCase') same
  have apart (arc : Arc n) (isCase : arc ∈ v.cases head) : arc.target ≠ head ∧ arc.target ≠ start :=
    ⟨forks.2 _ (leaves_of_mem_cases isCase) (plain isCase), (entered arc isCase).1⟩
  have uncontested (arc : Arc n) (isCase : arc ∈ v.cases head) : ¬ v.Contested c.members arc.target := by
    rintro ⟨one, known, two, known', unlike, leads, leads'⟩
    have named (entry : EdgeId × List (Fin n)) (known : entry ∈ c.members) (leads : v.Leads (· ∈ entry.2) arc.target) :
        (Part.case entry.1, entry.2.map Fin.val) ∈ (v.switchOf head c).members ∧
          v.Leads (fun b => b.val ∈ entry.2.map Fin.val) arc.target := by
      obtain ⟨other, enters, ahead, inside⟩ := leads
      exact ⟨List.mem_map_of_mem known, other, enters, ahead, List.mem_map_of_mem inside⟩
    obtain ⟨member, leads⟩ := named one known leads
    obtain ⟨member', leads'⟩ := named two known' leads'
    exact unlike (Part.case.inj ((entered arc isCase).2 _ member _ member' leads leads'))
  obtain ⟨notHead, notHeld⟩ := oriented.caseOrder atHead distinct apart settled uncontested found
  rw [Region.isMember_eq_false_iff]
  refine ⟨fun same => notHead (Fin.ext same), fun held => ?_⟩
  obtain ⟨part, member, inside⟩ := held
  obtain ⟨entry, known, rfl⟩ := List.mem_map.mp member
  exact notHeld entry known ((List.mem_map_of_injective Fin.val_injective).mp inside)

theorem Oriented.syncRegion (oriented : v.Oriented start reached) (atHead : reached head) :
    v.FollowOutside start (v.syncRegion head) := by
  refine .ofBody fun r isSync regular f follow => ?_
  simp only [Regular, isSync] at regular
  exact oriented.syncBody atHead regular.1 regular.2 follow

/-- What the search may add at a block. -/
inductive Adds (v : View n) (b : Fin n) : Region → Prop where
  | loop : v.Adds b (v.loopRegion b).1
  | sync : v.Adds b (v.syncRegion b)
  | switch {r : Region} (run : v.switchRegion b = .ok r) : v.Adds b r
  | cond {whenTrue whenFalse : Fin n} (ways : v.branches? b = some (whenTrue, whenFalse)) :
    v.Adds b (v.condRegion b whenTrue whenFalse).1

section Keeps

variable {P : Findings → Prop} {b : Fin n} {f f' : Findings}

theorem findInner_keeps (adds : ∀ f region notes, P f → v.Adds b region → P (f.add region notes)) (holds : P f)
    (run : v.findInner b f = .ok f') : P f' := by
  unfold findInner at run
  split at run
  · cases run
    exact adds _ _ _ holds .sync
  · split at run
    · obtain ⟨region, found, run⟩ := bind_eq_ok.mp run
      cases run
      exact adds _ _ _ holds (.switch found)
    · split at run
      · rename_i ways
        split at run
        · cases run
          exact holds
        · cases run
          exact adds _ _ _ holds (.cond ways)
      · cases run
        exact holds

theorem findAt_keeps (adds : ∀ f region notes, P f → v.Adds b region → P (f.add region notes)) (holds : P f)
    (run : v.findAt b f = .ok f') : P f' := by
  unfold findAt at run
  split at run
  · cases run
    exact holds
  · split at run
    · have holds' := adds f _ (v.loopRegion b).2 holds .loop
      simp only at run
      split at run
      · cases run
        exact holds'
      · exact findInner_keeps adds holds' run
    · exact findInner_keeps adds holds run

/-- By induction on the heads. -/
theorem findAll_keeps {order : List (Fin n)}
    (adds : ∀ b ∈ order, ∀ f region notes, P f → v.Adds b region → P (f.add region notes)) (holds : P f)
    (run : order.foldlM (fun f b => v.findAt b f) f = .ok f') : P f' := by
  induction order generalizing f with
  | nil =>
    cases run
    exact holds
  | cons b rest ih =>
    rw [List.foldlM_cons] at run
    obtain ⟨mid, first, others⟩ := bind_eq_ok.mp run
    exact ih (fun b member => adds b (.tail _ member))
      (findAt_keeps (adds b (.head _)) holds first) others

end Keeps

theorem Oriented.adds (oriented : v.Oriented start reached) {b : Fin n} (atBlock : reached b) {region : Region}
    (adds : v.Adds b region) : v.FollowOutside start region := by
  cases adds with
  | loop => exact oriented.loopRegion atBlock
  | sync => exact oriented.syncRegion atBlock
  | switch run => exact oriented.switchRegion atBlock run
  | cond ways => exact oriented.condRegion atBlock ways

theorem FollowOutside.add {f : Findings} (kept : ∀ r ∈ f.regions, v.FollowOutside start r) {region : Region}
    (outside : v.FollowOutside start region) (notes : List Diagnostic) :
    ∀ r ∈ (f.add region notes).regions, v.FollowOutside start r := by
  intro r member
  rcases List.mem_append.mp member with old | new
  · exact kept r old
  · -- the enclosing region does not matter
    rw [List.mem_singleton.mp new]
    exact outside

end View

/-- The search for regions after a search in depth visits the reachable blocks, those with the higher numbers first, and it
changes nothing but the regions. -/
theorem Graph.Searched.findRegions_finds {g found : Graph} {notes : List Diagnostic} (searched : g.Searched)
    (wired : g.Wired) (run : g.findRegions = .ok (found, notes)) :
    ∃ (f : Flow g.size) (order : List (Fin g.size)) (early : List Diagnostic) (last : Findings), g.flow = .ok f ∧
      g.Reflects f ∧ (∀ b, b ∈ order ↔ g.Reachable b) ∧
      (order.Pairwise fun a b => (View.mk f g.blocks.toVector).number b < (View.mk f g.blocks.toVector).number a) ∧
      order.foldlM (fun found b => (View.mk f g.blocks.toVector).findAt b found) ⟨[], early⟩ = .ok last ∧
      found = { g with regions := last.regions } := by
  obtain ⟨f, _, flowed, reflects, _⟩ := searched.dominators wired
  obtain ⟨order, listed, survey⟩ := searched.surveyed wired reflects
  obtain ⟨v, viewed, run⟩ := bind_eq_ok.mp run
  obtain ⟨_, _, run⟩ := bind_eq_ok.mp run
  obtain ⟨_, _, run⟩ := bind_eq_ok.mp run
  obtain ⟨order', listed', run⟩ := bind_eq_ok.mp run
  obtain ⟨last, finds, run⟩ := bind_eq_ok.mp run
  cases run
  cases listed.ok_unique listed'
  simp only [Graph.view, flowed, ok_bind] at viewed
  cases viewed
  refine ⟨f, order, _, last, flowed, reflects, fun b => ?_, survey.falling, finds, rfl⟩
  exact (survey.listed b).trans (reflects.reachable_iff wired searched.inside b)

/-- The search for regions after a search in depth finds those with their follow outside, the irregular ones apart. -/
theorem Graph.Searched.findRegions_follow {g found : Graph} {notes : List Diagnostic} (searched : g.Searched)
    (wired : g.Wired) (run : g.findRegions = .ok (found, notes)) :
    ∃ (v : View found.size) (start : Fin found.size), found.view = .ok v ∧ start.val = found.start ∧
      ∀ r ∈ found.regions, v.FollowOutside start r := by
  obtain ⟨f, order, _, last, flowed, reflects, all, _, finds, rfl⟩ := searched.findRegions_finds wired run
  refine ⟨⟨f, g.blocks.toVector⟩, ⟨g.start, searched.inside⟩, ?_, rfl, ?_⟩
  · have same : Graph.flow { g with regions := last.regions } = g.flow := rfl
    simp only [Graph.view]
    rw [same, flowed]
    rfl
  · have oriented := searched.oriented wired reflects
    exact View.findAll_keeps (P := fun known => ∀ r ∈ known.regions, View.FollowOutside _ _ r)
      (fun b atBlock _ _ notes kept adds => .add kept (oriented.adds ((all b).mp atBlock) adds) notes) (by simp) finds

namespace MethodInput

/-- Where a method can be analysed, the last thing is a search for regions in a graph that was just searched. -/
theorem decompile_findRegions {input : MethodInput} {plan : Plan} {g g' : Graph}
    (built : (Graph.ofMethod input).run = .ok (.ok g)) (solved : g.solve plan.options = .ok (.ok (), g')) :
    ∃ (d : Decompiled) (before last : Graph) (notes : List Diagnostic), input.decompile plan = .ok d ∧
      d.graph = some last ∧ before.Wired ∧ before.Searched ∧ before.findRegions = .ok (last, notes) := by
  have ofMethod := (Graph.ofMethod_yields input).of_run built
  obtain ⟨draft, analysed⟩ := ofMethod.analyse_total (ofMethod.fits solved) plan
  have run := decompile_eq built analysed
  obtain ⟨⟨_, g₁⟩, solved', rest⟩ := bind_eq_ok.mp analysed
  cases solved.ok_unique solved'
  obtain ⟨⟨_, g₂⟩, removed, rest⟩ := bind_eq_ok.mp rest
  obtain ⟨g₃, numbered, rest⟩ := bind_eq_ok.mp rest
  obtain ⟨⟨outcome, d⟩, rebuilt, rest⟩ := bind_eq_ok.mp rest
  obtain ⟨_, _, prepares⟩ := ofMethod.prepares solved removed numbered
  obtain ⟨_, _, rebuilt', kept⟩ := prepares.searched.reconstruct prepares.sturdy.wired plan []
  cases rebuilt.ok_unique rebuilt'
  obtain ⟨rfl, _⟩ := Graph.reconstruct_ends (prepares.orderly built) prepares.searched.once rebuilt
  obtain ⟨wired, searched⟩ := kept rfl
  obtain ⟨⟨last, notes⟩, found, rest⟩ := bind_eq_ok.mp rest
  cases rest
  exact ⟨_, d.graph, last, notes, run, rfl, wired, searched, found⟩

/-- Where a method can be analysed, the follow of every region that is regular is neither its head nor one of its
members. -/
theorem decompile_follow_outside {input : MethodInput} {plan : Plan} {g g' : Graph}
    (built : (Graph.ofMethod input).run = .ok (.ok g)) (solved : g.solve plan.options = .ok (.ok (), g')) :
    ∃ (d : Decompiled) (last : Graph) (v : View last.size) (start : Fin last.size), input.decompile plan = .ok d ∧
      d.graph = some last ∧ last.view = .ok v ∧ start.val = last.start ∧
      ∀ r ∈ last.regions, ∃ head : Fin last.size, r.head = head ∧
        (v.Regular start head r → ∀ f, r.follow = some f → r.isMember f = false) := by
  obtain ⟨d, before, last, notes, run, atGraph, wired, searched, found⟩ := decompile_findRegions built solved
  obtain ⟨v, start, viewed, atStart, outside⟩ := searched.findRegions_follow wired found
  exact ⟨d, last, v, start, run, atGraph, viewed, atStart, outside⟩

/-- A loop around a condition, which is tested at its end. The loop begins at the start of the method. -/
def retried : MethodInput where
  info := MethodInfo.plain "retried" 2 1
  ops := [⟨0, 0, -1, .load .int 0⟩, ⟨0, 0, -1, .jumpZero .int .eq 4⟩, ⟨0, 0, -1, .push .int (.int 1)⟩,
    ⟨0, 0, -1, .store .int 1⟩, ⟨0, 0, -1, .load .int 1⟩, ⟨0, 0, -1, .jumpZero .int .ne 0⟩, ⟨0, 0, -1, .leave .void⟩]
  exceptions := []

theorem decompile_follow_outside_retried : ∃ d last, retried.decompile ⟨.none, {}⟩ = .ok d ∧ d.graph = some last ∧
    last.regions.map Region.kind = [.loop .untilFalse (some 2), .cond .negated] ∧
    ∀ r ∈ last.regions, ∃ f, r.follow = some f ∧ r.isMember f = false := by
  have regular : (retried.decompile ⟨.none, {}⟩).toOption.any fun d => d.graph.any fun g => g.view.toOption.any fun v =>
      decide (g.regions.map Region.kind = [.loop .untilFalse (some 2), .cond .negated] ∧
        ∀ r ∈ g.regions, r.follow.isSome ∧ ∀ start head : Fin g.size, start.val = g.start → r.head = head →
          (v.Forks head ∧ ¬ r.Holds start ∧ ∀ last : Fin g.size, last.val = 2 → v.Latches head last)) := by
    decide +kernel
  obtain ⟨g, g', built, solved⟩ := Graph.solves_of_isSome (show (Graph.solved? retried {}).isSome by decide +kernel)
  obtain ⟨d, last, v, start, run, atGraph, viewed, atStart, outside⟩ :=
    @decompile_follow_outside retried ⟨.none, {}⟩ g g' built solved
  obtain ⟨d', run', regular⟩ := of_any_toOption regular
  cases Except.ok.inj (run.symm.trans run')
  rw [atGraph, Option.any_some] at regular
  obtain ⟨v', viewed', regular⟩ := of_any_toOption regular
  cases Except.ok.inj (viewed.symm.trans viewed')
  obtain ⟨kinds, each⟩ := of_decide_eq_true regular
  refine ⟨d, last, run, atGraph, kinds, fun r member => ?_⟩
  obtain ⟨given, conditions⟩ := each r member
  obtain ⟨f, follow⟩ := Option.isSome_iff_exists.mp given
  obtain ⟨head, atHead, ends⟩ := outside r member
  obtain ⟨forks, notHeld, latches⟩ := conditions start head atStart atHead
  refine ⟨f, follow, ends ?_ f follow⟩
  have kind := List.mem_map_of_mem (f := Region.kind) member
  rw [kinds] at kind
  rcases List.mem_cons.mp kind with isLoop | isCond
  · simp only [View.Regular, isLoop]
    exact fun _ l same => latches l (Option.some.inj same).symm
  · simp only [View.Regular, List.mem_singleton.mp isCond]
    exact ⟨forks, notHeld⟩

/-- Both ways from a branch lead to the same block. -/
def idleTest : MethodInput where
  info := MethodInfo.plain "idleTest" 1 1
  ops := [⟨0, 0, -1, .load .int 0⟩, ⟨0, 0, -1, .jumpZero .int .ne 2⟩, ⟨0, 0, -1, .leave .void⟩]
  exceptions := []

/-- The block behind the branch is taken for its body and for its follow. -/
theorem decompile_follow_inside : ∃ d last r f, idleTest.decompile ⟨.none, {}⟩ = .ok d ∧ d.failed = false ∧
    d.graph = some last ∧ r ∈ last.regions ∧ r.follow = some f ∧ r.isMember f = true := by
  have inside : (idleTest.decompile ⟨.none, {}⟩).toOption.any fun d => !d.failed && d.graph.any fun g =>
      g.regions.any fun r => r.follow.any r.isMember := by decide +kernel
  obtain ⟨d, run, inside⟩ := of_any_toOption inside
  rw [Bool.and_eq_true, Bool.not_eq_true', Option.any_eq_true] at inside
  obtain ⟨clean, last, atGraph, inside⟩ := inside
  obtain ⟨r, member, inside⟩ := List.any_eq_true.mp inside
  obtain ⟨f, follow, held⟩ := (Option.any_eq_true _ _).mp inside
  exact ⟨d, last, r, f, run, clean, atGraph, member, follow, held⟩

end MethodInput

end Unstack
