import Unstack.Proofs.Region.CaseOrder
import Unstack.Proofs.Region.Exploration

namespace Unstack

variable {n : Nat} {arc : Arc n} {v : View n} {b : Fin n}

namespace View

/-- The edges that lead from the head of a switch to its cases. -/
def cases (v : View n) (head : Fin n) : List (Arc n) := (v.outs head).filter fun arc => arc.kind.isSwitchCase

theorem leaves_of_mem_cases {head : Fin n} (member : arc ∈ v.cases head) : arc ∈ v.outs head :=
  (List.mem_filter.mp member).1

/-- A forward edge leads to the block from inside. -/
def Leads (v : View n) (inside : Fin n → Prop) (b : Fin n) : Prop :=
  ∃ arc ∈ v.ins b, arc.back = false ∧ inside arc.source

/-- Control gets to the block from two different cases. -/
def Contested (v : View n) (searched : List (EdgeId × List (Fin n))) (b : Fin n) : Prop :=
  ∃ one ∈ searched, ∃ two ∈ searched, one.1 ≠ two.1 ∧ v.Leads (· ∈ one.2) b ∧ v.Leads (· ∈ two.2) b

theorem Contested.mono {searched searched' : List (EdgeId × List (Fin n))} (contested : v.Contested searched b)
    (more : searched ⊆ searched') : v.Contested searched' b := by
  obtain ⟨one, first, two, second, apart, leads, leads'⟩ := contested
  exact ⟨one, more first, two, more second, apart, leads, leads'⟩

/-- The blocks of a case that was searched. Its target is entered from the head only, or from the blocks of a case that was
searched too. -/
structure CaseBody (v : View n) (reached : Fin n → Prop) (head : Fin n) (searched : List (EdgeId × List (Fin n)))
    (arc : Arc n) (blocks : List (Fin n)) : Prop where
  isCase : arc ∈ v.cases head
  ahead : arc.back = false
  closed : v.Closed arc.target blocks
  behind : v.Behind reached head blocks
  entered : (∀ other ∈ v.ins arc.target, other.back = false → other = arc) ∨
    ∃ entry ∈ searched, entry.1 ≠ arc.edge ∧ v.Leads (· ∈ entry.2) arc.target

end View

namespace CaseOrder

open View (leaves_of_mem_cases explore_grows Closed Enclosed Behind)

/-- What holds of the cases that were settled, with the others still pending. -/
structure Settling (v : View n) (reached : Fin n → Prop) (head : Fin n) (c : CaseOrder n) (pending : List (Arc n)) :
    Prop where
  once : (pending.map Arc.edge).Nodup
  isCase {arc : Arc n} : arc ∈ pending → arc ∈ v.cases head
  fresh {arc : Arc n} : arc ∈ pending → ∀ entry ∈ c.members, entry.1 ≠ arc.edge
  searched {entry : EdgeId × List (Fin n)} : entry ∈ c.members →
    ∃ arc, arc.edge = entry.1 ∧ v.CaseBody reached head c.members arc entry.2
  past {b : Fin n} : c.pastAll = some b → ∃ arc ∈ v.cases head, arc.target = b ∧
    (∀ other ∈ pending, other.edge ≠ arc.edge) ∧ ∀ entry ∈ c.members, entry.1 ≠ arc.edge
  wide {f : Fin n} : f ∈ c.follows → 1 < (v.ins f).length
  behind {f : Fin n} : f ∈ c.follows → v.number f < v.number head
  /-- Only a case that control falls into from two others may be a follow as well. -/
  follows {f : Fin n} : f ∈ c.follows → ∀ entry ∈ c.members, f ∈ entry.2 →
    ∃ arc ∈ v.cases head, arc.target = f ∧ v.Contested c.members f

variable {v : View n} {start head : Fin n} {reached : Fin n → Prop} {c : CaseOrder n} {pending : List (Arc n)}
  {i position : Nat} {e : EdgeId} {c' : CaseOrder n} {known : Option Nat} {holders : List (List Nat)}

theorem setMembers_fresh {searched : List (EdgeId × List (Fin n))} (fresh : ∀ entry ∈ searched, entry.1 ≠ e)
    (blocks : List (Fin n)) : setMembers e blocks searched = searched ++ [(e, blocks)] := by
  induction searched with
  | nil => rfl
  | cons entry rest ih =>
    rw [setMembers, if_neg (fresh entry (.head _)), ih fun later member => fresh later (.tail _ member)]
    rfl

theorem membersOf_fresh (fresh : ∀ entry ∈ c.members, entry.1 ≠ e) : c.membersOf e = [] := by
  have absent : c.members.lookup e = none := by
    rw [List.lookup_eq_none_iff]
    exact fun entry member => by simpa using (fresh entry member).symm
  rw [membersOf, absent]
  rfl

theorem mem_membersOf (member : b ∈ c.membersOf e) : ∃ blocks, (e, blocks) ∈ c.members ∧ b ∈ blocks := by
  unfold membersOf at member
  cases found : c.members.lookup e with
  | none => simp [found] at member
  | some blocks =>
    rw [found] at member
    obtain ⟨before, after, split, _⟩ := List.lookup_eq_some_iff.mp found
    exact ⟨blocks, by simp [split], member⟩

theorem mem_holders (member : position ∈ c.holders i b) : ∃ entry ∈ c.members, b ∈ entry.2 := by
  simp only [holders, List.mem_map, List.mem_reverse, List.mem_filter, List.contains_eq_mem, decide_eq_true_eq] at member
  obtain ⟨⟨arc, _⟩, ⟨_, inside⟩, _⟩ := member
  obtain ⟨blocks, known, inside⟩ := mem_membersOf inside
  exact ⟨_, known, inside⟩

theorem entrance_none (falls : entrance known holders = .fallsFrom none) : known = none ∧ holders = [] := by
  induction holders generalizing known with
  | nil =>
    cases falls
    exact ⟨rfl, rfl⟩
  | cons here rest ih =>
    rw [entrance] at falls
    split at falls
    · cases falls
    · split at falls
      · cases (ih falls).1
      · cases falls

theorem entrance_some (falls : entrance known holders = .fallsFrom (some position)) :
    known = some position ∨ ∃ here ∈ holders, here ≠ [] := by
  induction holders generalizing known with
  | nil =>
    cases falls
    exact .inl rfl
  | cons here rest ih =>
    cases here with
    | cons first others => exact .inr ⟨_, .head _, by simp⟩
    | nil =>
      cases known with
      | none => simp [entrance] at falls
      | some first =>
        simp only [entrance, Option.toList_some, List.append_nil, List.all_nil, if_true] at falls
        rcases ih falls with same | ⟨here, member, some⟩
        · exact .inl same
        · exact .inr ⟨here, .tail _ member, some⟩

/-- A case that nothing falls into is entered by its own edge only. -/
theorem fallsFrom_none (oriented : v.Oriented start reached) (leaves : arc ∈ v.outs head)
    (falls : entranceOf v c i arc = .fallsFrom none) : ∀ other ∈ v.ins arc.target, other.back = false → other = arc := by
  intro other enters ahead
  have enters' := oriented.enters leaves
  simp only [entranceOf] at falls
  split at falls
  · rename_i few
    exact eq_of_short few enters enters'
  · have none := (entrance_none falls).2
    rw [List.map_eq_nil_iff, List.filter_eq_nil_iff] at none
    refine oriented.same enters enters' ?_
    simpa [ahead] using none other enters

theorem fallsFrom_some (falls : entranceOf v c i arc = .fallsFrom (some position)) :
    ∃ entry ∈ c.members, v.Leads (· ∈ entry.2) arc.target := by
  simp only [entranceOf] at falls
  split at falls
  · cases falls
  · obtain ⟨here, member, notEmpty⟩ := (entrance_some falls).resolve_left (by simp)
    obtain ⟨other, chosen, rfl⟩ := List.mem_map.mp member
    obtain ⟨enters, apart⟩ := List.mem_filter.mp chosen
    obtain ⟨position, held⟩ := List.exists_mem_of_ne_nil _ notEmpty
    obtain ⟨entry, known, inside⟩ := mem_holders held
    exact ⟨entry, known, other, enters, by simp_all, inside⟩

/-- A case that an edge goes back to is never searched: it is entered from before the head, where no case has blocks. -/
theorem Settling.ahead_of_falls (oriented : v.Oriented start reached) (atHead : reached head)
    (settling : Settling v reached head c pending) (leaves : arc ∈ v.outs head) (notStart : arc.target ≠ start)
    {position : Option Nat} (falls : entranceOf v c i arc = .fallsFrom position) : arc.back = false := by
  rw [Bool.eq_false_iff]
  intro goesBack
  cases position with
  | none =>
    obtain ⟨_, other, enters, ahead, _⟩ := oriented.other_entry atHead leaves goesBack notStart
    rw [fallsFrom_none oriented leaves falls other enters ahead, goesBack] at ahead
    cases ahead
  | some position =>
    obtain ⟨entry, known, other, enters, ahead, inside⟩ := fallsFrom_some falls
    obtain ⟨_, _, searched⟩ := settling.searched known
    obtain ⟨reachedSource, below⟩ := searched.behind _ inside
    have lower := oriented.forward reachedSource (oriented.leaves enters) ahead
    rw [oriented.target enters] at lower
    have higher := oriented.back leaves goesBack
    omega

namespace Settling

variable {arc : Arc n}

theorem perm (settling : Settling v reached head c pending) {pending' : List (Arc n)} (same : pending'.Perm pending) :
    Settling v reached head c pending' :=
  { settling with
    once := (same.map Arc.edge).nodup_iff.mpr settling.once
    isCase := fun member => settling.isCase (same.mem_iff.mp member)
    fresh := fun member => settling.fresh (same.mem_iff.mp member)
    past := fun past => by
      obtain ⟨arc, isCase, target, apart, unknown⟩ := settling.past past
      exact ⟨arc, isCase, target, fun other member => apart other (same.mem_iff.mp member), unknown⟩ }

theorem reorder (settling : Settling v reached head c pending) (order : List (Arc n)) :
    Settling v reached head { c with order } pending := { settling with }

theorem tail (settling : Settling v reached head c (arc :: pending)) : Settling v reached head c pending :=
  { settling with
    once := (List.nodup_cons.mp settling.once).2
    isCase := fun member => settling.isCase (.tail _ member)
    fresh := fun member => settling.fresh (.tail _ member)
    past := fun past => by
      obtain ⟨arc, isCase, target, apart, unknown⟩ := settling.past past
      exact ⟨arc, isCase, target, fun other member => apart other (.tail _ member), unknown⟩ }

theorem ne_head (settling : Settling v reached head c (arc :: pending)) : ∀ other ∈ pending, other.edge ≠ arc.edge :=
  fun _ member same => (List.nodup_cons.mp settling.once).1 (same ▸ List.mem_map_of_mem member)

theorem skip (settling : Settling v reached head c (arc :: pending)) : Settling v reached head (c.skip arc) pending := by
  unfold CaseOrder.skip
  split
  · refine { settling.tail with past := fun past => ?_ }
    cases past
    exact ⟨arc, settling.isCase (.head _), rfl, settling.ne_head, settling.fresh (.head _)⟩
  · exact settling.tail

section Search

variable (oriented : v.Oriented start reached) (atHead : reached head)
  (distinct : ∀ one ∈ v.cases head, ∀ two ∈ v.cases head, one.target = two.target → one.edge = two.edge)
  (settling : Settling v reached head c (arc :: pending)) {found : Branch n}
  (searched : v.CaseBody reached head c.members arc found.members)

include oriented distinct settling searched

/-- A block that the search of a case has come to is in an earlier case only if that case begins there and control falls
into it already. -/
theorem contested {entry : EdgeId × List (Fin n)} (known : entry ∈ c.members) {f : Fin n} (inside : f ∈ entry.2)
    (comes : v.Comes arc.target found f) :
    ∃ arc' ∈ v.cases head, arc'.target = f ∧ v.Contested (c.members ++ [(arc.edge, found.members)]) f := by
  obtain ⟨arc', edge, earlier⟩ := settling.searched known
  have unlike : arc'.edge ≠ arc.edge := edge ▸ settling.fresh (.head _) entry known
  have apart : arc.target ≠ arc'.target := fun same =>
    unlike (distinct _ searched.isCase _ earlier.isCase same).symm
  have outside := oriented.target_not_mem (leaves_of_mem_cases searched.isCase) earlier.closed earlier.behind apart
  have outside' := oriented.target_not_mem (leaves_of_mem_cases earlier.isCase) searched.closed searched.behind apart.symm
  have disjoint := oriented.disjoint searched.closed earlier.closed searched.behind outside outside'
  obtain ⟨other, enters, ahead, source⟩ := oriented.entry comes fun same => outside (same ▸ inside)
  rcases earlier.closed f inside with same | ⟨_, all⟩
  · refine ⟨arc', earlier.isCase, same.symm, ?_⟩
    rcases earlier.entered with only | ⟨entry', known', _, leads'⟩
    · -- the edge does not come from the head
      rw [same] at enters
      rw [only other enters ahead, oriented.source (leaves_of_mem_cases earlier.isCase)] at source
      exact absurd (searched.behind _ source).2 (Nat.lt_irrefl _)
    · exact ⟨entry', List.mem_append_left _ known', _, List.mem_append_right _ (.head _),
        settling.fresh (.head _) entry' known', same ▸ leads', other, enters, ahead, source⟩
  · exact absurd (all other enters ahead) (disjoint source)

include atHead

theorem search {found₀ : Branch n} (grows : v.Grows head arc.target found₀ found) (old : found₀.follows ⊆ c.follows)
    (apart : ∀ f ∈ found₀.follows, f ∉ found₀.members) {entered : List EdgeId} :
    Settling v reached head
      { c with members := c.members ++ [(arc.edge, found.members)], follows := found.follows, entered } pending := by
  have isCase : arc ∈ v.cases head := settling.isCase (.head _)
  have leaves := leaves_of_mem_cases isCase
  have ahead : reached arc.target ∧ v.number arc.target < v.number head :=
    ⟨oriented.onward atHead leaves, oriented.forward atHead leaves searched.ahead⟩
  have more : c.members ⊆ c.members ++ [(arc.edge, found.members)] := List.subset_append_left _ _
  have fresh (other : Arc n) (unlike : arc.edge ≠ other.edge) (unknown : ∀ entry ∈ c.members, entry.1 ≠ other.edge) :
      ∀ entry ∈ c.members ++ [(arc.edge, found.members)], entry.1 ≠ other.edge := by
    intro entry member
    rcases List.mem_append.mp member with known | new
    · exact unknown entry known
    · rw [List.mem_singleton.mp new]
      exact unlike
  have follow {f : Fin n} (member : f ∈ found.follows) := grows.follows (fun f member => settling.wide (old member)) member
  have grown {arc' : Arc n} {blocks : List (Fin n)} (searched : v.CaseBody reached head c.members arc' blocks) :
      v.CaseBody reached head (c.members ++ [(arc.edge, found.members)]) arc' blocks :=
    { searched with
      entered := searched.entered.imp_right fun entered => by
        obtain ⟨entry, known, unlike, leads⟩ := entered
        exact ⟨entry, more known, unlike, leads⟩ }
  refine
    { settling.tail with
      fresh := fun member => fresh _ (settling.ne_head _ member).symm (settling.tail.fresh member)
      searched := fun member => ?_
      past := fun past => ?_
      wide := fun member => (follow member).1
      behind := fun member => ?_
      follows := fun member entry known inside => ?_ }
  · rcases List.mem_append.mp member with known | new
    · obtain ⟨arc', edge, earlier⟩ := settling.searched known
      exact ⟨arc', edge, grown earlier⟩
    · rw [List.mem_singleton.mp new]
      exact ⟨arc, rfl, grown searched⟩
  · obtain ⟨past, isCase, target, apart, unknown⟩ := settling.past past
    exact ⟨past, isCase, target, fun other member => apart other (.tail _ member),
      fresh past (apart arc (.head _)) unknown⟩
  · rcases (follow member).2.1 with earlier | comes
    · exact settling.behind (old earlier)
    · exact (comes.behind oriented ahead searched.behind).2
  · obtain ⟨_, origin, both⟩ := follow member
    rcases List.mem_append.mp known with known | new
    · rcases origin with earlier | comes
      · obtain ⟨arc', isCase', target, contested⟩ := settling.follows (old earlier) entry known inside
        exact ⟨arc', isCase', target, contested.mono more⟩
      · exact settling.contested oriented distinct searched known inside comes
    · rw [List.mem_singleton.mp new] at inside
      obtain ⟨inside₀, follow₀⟩ := both inside
      exact absurd inside₀ (apart _ follow₀)

end Search

end Settling

theorem drop_defer (inside : i < c.order.length) (run : c.defer i = .ok c') :
    c' = { c with order := c'.order } ∧ (c'.order.drop i).Perm (c.order.drop i) := by
  simp only [defer, takeOut_eq inside, ok_bind] at run
  cases run
  refine ⟨rfl, ?_⟩
  have length : i ≤ (c.order.eraseIdx i).length := by
    rw [List.length_eraseIdx_of_lt inside]
    omega
  have rest : (c.order.eraseIdx i).drop i = c.order.drop (i + 1) := by
    rw [List.eraseIdx_eq_take_drop_succ, List.drop_left' (List.length_take_of_le inside.le)]
  rw [List.drop_append_of_le_length length, rest, List.drop_eq_getElem_cons inside]
  exact List.perm_append_singleton _ _

theorem drop_moveBehind (inside : i < c.order.length) (run : c.moveBehind position i = .ok c') :
    c' = { c with order := c'.order } ∧ c'.order.drop (i + 1) = c.order.drop (i + 1) := by
  simp only [moveBehind] at run
  split at run
  · rename_i early
    have fits : position + 1 ≤ (c.order.eraseIdx i).length := by
      rw [List.length_eraseIdx_of_lt inside]
      omega
    simp only [takeOut_eq inside, ok_bind, putIn_eq fits] at run
    cases run
    refine ⟨rfl, List.ext_getElem? fun k => ?_⟩
    rw [List.getElem?_drop, List.getElem?_drop, List.getElem?_insertIdx_of_gt (by omega), List.getElem?_eraseIdx_of_ge (by omega)]
    congr 1
    omega
  · cases run
    exact ⟨rfl, rfl⟩

section Settle

variable (oriented : v.Oriented start reached) (atHead : reached head)
  (distinct : ∀ one ∈ v.cases head, ∀ two ∈ v.cases head, one.target = two.target → one.edge = two.edge)
  (notStart : ∀ arc ∈ v.cases head, arc.target ≠ start)

include oriented atHead distinct notStart

/-- Searching such a case by itself keeps the invariant. -/
theorem Settling.search_alone (settling : Settling v reached head c (arc :: pending))
    (falls : entranceOf v c i arc = .fallsFrom none) :
    Settling v reached head (CaseOrder.search v head c arc) pending := by
  have isCase : arc ∈ v.cases head := settling.isCase (.head _)
  have leaves := leaves_of_mem_cases isCase
  have ahead := settling.ahead_of_falls oriented atHead leaves (notStart arc isCase) falls
  have fresh : ∀ entry ∈ c.members, entry.1 ≠ arc.edge := settling.fresh (.head _)
  have grows : v.Grows head arc.target ⟨[], c.follows⟩ (v.growBranch head arc.target ⟨[], c.follows⟩) :=
    explore_grows _ (.inl rfl)
  have below := And.intro (oriented.onward atHead leaves) (oriented.forward atHead leaves ahead)
  have body : v.CaseBody reached head c.members arc (v.growBranch head arc.target ⟨[], c.follows⟩).members :=
    ⟨isCase, ahead, grows.closed oriented (by simp [Closed]), grows.behind oriented below (by simp [Behind]),
      .inl (fallsFrom_none oriented leaves falls)⟩
  simp only [CaseOrder.search, membersOf_fresh fresh, setMembers_fresh fresh]
  exact settling.search oriented atHead distinct body grows (fun _ => id) (by simp)

omit notStart in
theorem Settling.search_entered (settling : Settling v reached head c (arc :: pending)) (ahead : arc.back = false)
    (entered : ∃ entry ∈ c.members, v.Leads (· ∈ entry.2) arc.target) :
    Settling v reached head (searchEntered v head c arc) pending := by
  have isCase : arc ∈ v.cases head := settling.isCase (.head _)
  have leaves := leaves_of_mem_cases isCase
  have fresh : ∀ entry ∈ c.members, entry.1 ≠ arc.edge := settling.fresh (.head _)
  have grows : v.Grows head arc.target ⟨[arc.target], c.follows.filter (· != arc.target)⟩
      (v.growBranch head arc.target ⟨[arc.target], c.follows.filter (· != arc.target)⟩) := explore_grows _ (.inl rfl)
  have below := And.intro (oriented.onward atHead leaves) (oriented.forward atHead leaves ahead)
  obtain ⟨entry, known, leads⟩ := entered
  have body : v.CaseBody reached head c.members arc
      (v.growBranch head arc.target ⟨[arc.target], c.follows.filter (· != arc.target)⟩).members :=
    ⟨isCase, ahead, grows.closed oriented (by simp [Closed, Enclosed]),
      grows.behind oriented below (by simpa [Behind] using below), .inr ⟨entry, known, fresh entry known, leads⟩⟩
  simp only [searchEntered, membersOf_fresh fresh, setMembers_fresh fresh, List.nil_append]
  exact settling.search oriented atHead distinct body grows (fun _ member => (List.mem_filter.mp member).1)
    (by simp)

theorem Settling.fallInto (settling : Settling v reached head c (arc :: c.order.drop (i + 1)))
    (inside : i < c.order.length) (falls : entranceOf v c i arc = .fallsFrom (some position))
    (run : CaseOrder.fallInto v head c position i arc = .ok c') :
    Settling v reached head c' (c'.order.drop (i + 1)) := by
  have isCase : arc ∈ v.cases head := settling.isCase (.head _)
  have ahead := settling.ahead_of_falls oriented atHead (leaves_of_mem_cases isCase) (notStart arc isCase) falls
  have entered := fallsFrom_some falls
  obtain ⟨moved, behind, run⟩ := bind_eq_ok.mp run
  obtain ⟨same, rest⟩ := drop_moveBehind inside behind
  cases run
  rw [← rest] at settling
  have settling' : Settling v reached head moved (arc :: moved.order.drop (i + 1)) := same ▸ settling.reorder moved.order
  split
  · rw [skip_order]
    exact settling'.skip
  · refine settling'.search_entered oriented atHead distinct ahead ?_
    rw [same]
    exact entered

/-- Whatever is put into another order, what is known of the cases stays true. -/
theorem Settling.settle {size : Nat} (fuel deferrals : Nat) (settling : Settling v reached head c (c.order.drop i))
    {last : CaseOrder n} (run : settle v head size fuel deferrals i c = .ok last) :
    ∃ pending, Settling v reached head last pending := by
  induction fuel generalizing deferrals i c with
  | zero =>
    cases run
    exact ⟨_, settling⟩
  | succ fuel ih =>
    cases deferrals with
    | zero =>
      cases run
      exact ⟨_, settling⟩
    | succ deferrals =>
      rw [CaseOrder.settle] at run
      split at run
      · cases run
        exact ⟨_, settling⟩
      · obtain ⟨arc, here, run⟩ := bind_eq_ok.mp run
        have here : c.order[i]? = some arc := by
          unfold caseAt at here
          split at here
          · cases here
            assumption
          · cases here
        obtain ⟨inside, rfl⟩ := List.getElem?_eq_some_iff.mp here
        have settling' := settling
        rw [List.drop_eq_getElem_cons inside] at settling'
        split at run
        · exact ih _ (by rw [skip_order]; exact settling'.skip) run
        · split at run
          · exact ih _ (by rw [skip_order]; exact settling'.skip) run
          · obtain ⟨deferred, later, run⟩ := bind_eq_ok.mp run
            obtain ⟨same, perm⟩ := drop_defer inside later
            refine ih _ ?_ run
            exact same ▸ (settling.perm perm).reorder deferred.order
        · rename_i falls
          exact ih _ (settling'.search_alone oriented atHead distinct notStart falls) run
        · rename_i position falls
          obtain ⟨entered, moves, run⟩ := bind_eq_ok.mp run
          exact ih _ (settling'.fallInto oriented atHead distinct notStart inside falls moves) run

end Settle

end CaseOrder

/-- The follow of a switch is outside, if its cases begin at different blocks other than the head and the start, and control
falls into none of them from two others. -/
theorem View.Oriented.caseOrder {start head : Fin n} {reached : Fin n → Prop} {c : CaseOrder n}
    (oriented : v.Oriented start reached) (atHead : reached head)
    (distinct : ∀ one ∈ v.cases head, ∀ two ∈ v.cases head, one.target = two.target → one.edge = two.edge)
    (apart : ∀ arc ∈ v.cases head, arc.target ≠ head ∧ arc.target ≠ start) (run : v.caseOrder head = .ok c)
    (uncontested : ∀ arc ∈ v.cases head, ¬ v.Contested c.members arc.target) {f : Fin n}
    (follow : c.pastAll.or (v.earliest c.follows) = some f) : f ≠ head ∧ ∀ entry ∈ c.members, f ∉ entry.2 := by
  have initial : CaseOrder.Settling v reached head ⟨v.cases head, [], [], none, []⟩ (v.cases head) :=
    { once := (oriented.once head).sublist ((List.filter_sublist).map _)
      isCase := id
      fresh := by simp
      searched := by simp
      past := by simp
      wide := by simp
      behind := by simp
      follows := by simp }
  obtain ⟨_, settling⟩ := initial.settle oriented atHead distinct (fun arc isCase => (apart arc isCase).2) _ _ run
  cases past : c.pastAll with
  | some b =>
    rw [past] at follow
    cases follow
    obtain ⟨arc, isCase, rfl, _, unknown⟩ := settling.past past
    refine ⟨(apart arc isCase).1, fun entry known inside => ?_⟩
    obtain ⟨arc', edge, body⟩ := settling.searched known
    refine oriented.target_not_mem (leaves_of_mem_cases isCase) body.closed body.behind (fun same => ?_) inside
    exact unknown entry known (edge.symm.trans (distinct _ isCase _ body.isCase same).symm)
  | none =>
    rw [past] at follow
    have member := mem_of_earliest follow
    refine ⟨fun same => ?_, fun entry known inside => ?_⟩
    · have lower := settling.behind member
      rw [same] at lower
      exact Nat.lt_irrefl _ lower
    · obtain ⟨arc, isCase, rfl, contested⟩ := settling.follows member entry known inside
      exact uncontested arc isCase contested

end Unstack
