import Unstack.Proofs.Region.CaseTurn

namespace Unstack

variable {n k : Nat}

namespace CaseOrder

variable {v : View n} {head : Fin n} {c c' : CaseOrder n} {i position m : Nat} {arc : Arc n} {order : List (Arc n)}

/-- Control may come from a block of one case to the target of the other one without going back. -/
def FallsInto (v : View n) (c : CaseOrder n) (before next : Arc n) : Prop :=
  v.Leads (· ∈ c.membersOf before.edge) next.target

theorem entrance_position {known : Option Nat} {holders : List (List Nat)}
    (falls : entrance known holders = .fallsFrom (some position)) :
    known = some position ∨ ∃ here ∈ holders, position ∈ here := by
  induction holders generalizing known with
  | nil =>
    cases falls
    exact .inl rfl
  | cons here rest ih =>
    rw [entrance] at falls
    split at falls
    · cases falls
    · rename_i first others split
      split at falls
      · rcases ih falls with same | ⟨later, member, held⟩
        · have among : position ∈ known.toList ++ here := by
            rw [split, ← Option.some.inj same]
            exact .head _
          rcases List.mem_append.mp among with known | held
          · exact .inl (Option.mem_toList.mp known)
          · exact .inr ⟨here, .head _, held⟩
        · exact .inr ⟨later, .tail _ member, held⟩
      · cases falls

theorem holders_position {b : Fin n} (member : position ∈ c.holders i b) :
    position < i ∧ ∃ before, c.order[position]? = some before ∧ b ∈ c.membersOf before.edge := by
  simp only [holders, List.mem_map, List.mem_reverse, List.mem_filter, List.contains_eq_mem, decide_eq_true_eq] at member
  obtain ⟨⟨before, _⟩, ⟨listed, held⟩, rfl⟩ := member
  have found := List.mem_zipIdx_iff_getElem?.mp listed
  rw [List.getElem?_take] at found
  split at found
  · rename_i early
    exact ⟨early, before, found, held⟩
  · cases found

theorem fallsFrom_position (falls : entranceOf v c i arc = .fallsFrom (some position)) :
    position < i ∧ ∃ before, c.order[position]? = some before ∧ c.FallsInto v before arc := by
  simp only [entranceOf] at falls
  split at falls
  · cases falls
  · obtain ⟨here, member, held⟩ := (entrance_position falls).resolve_left (by simp)
    obtain ⟨other, chosen, rfl⟩ := List.mem_map.mp member
    obtain ⟨enters, apart⟩ := List.mem_filter.mp chosen
    obtain ⟨early, before, found, inside⟩ := holders_position held
    exact ⟨early, before, found, other, enters, by simp_all, inside⟩

theorem lookup_setMembers (e e' : EdgeId) (blocks : List (Fin n)) (searched : List (EdgeId × List (Fin n))) :
    (setMembers e blocks searched).lookup e' = if e' = e then some blocks else searched.lookup e' := by
  induction searched with
  | nil =>
    by_cases same : e' = e
    · simp [setMembers, same]
    · simp [setMembers, List.lookup_cons, same, beq_false_of_ne same]
  | cons entry rest ih =>
    obtain ⟨key, old⟩ := entry
    rw [setMembers]
    by_cases here : key = e
    · subst here
      by_cases same : e' = key
      · simp [same]
      · simp [List.lookup_cons, same, beq_false_of_ne same]
    · rw [if_neg here]
      by_cases atKey : e' = key
      · subst atKey
        simp [here]
      · simp [List.lookup_cons, beq_false_of_ne atKey, ih]

/-- What was found for one case does not change the blocks of another one. -/
theorem membersOf_record {e : EdgeId} (other : e ≠ arc.edge) (found : Branch n) (entered : List EdgeId) :
    (c.record arc found entered).membersOf e = c.membersOf e := by
  rw [membersOf, record, lookup_setMembers, if_neg other]
  rfl

theorem skip_same (c : CaseOrder n) (arc : Arc n) : c.skip arc = { c with pastAll := (c.skip arc).pastAll } := by
  unfold skip
  split <;> rfl

theorem getElem?_defer (inside : i < c.order.length) (deferred : c.defer i = .ok c') (early : k < i) :
    c'.order[k]? = c.order[k]? := by
  simp only [defer, takeOut_eq inside, ok_bind] at deferred
  cases deferred
  have length := List.length_eraseIdx_of_lt inside
  rw [List.getElem?_append_left (by omega), List.getElem?_eraseIdx_of_lt early]

/-- The order after the case at `i` was moved behind the one at `position`. -/
def MovedBehind (c : CaseOrder n) (position i : Nat) (order : List (Arc n)) : Prop :=
  ∀ k, order[k]? = if k ≤ position then c.order[k]? else if k = position + 1 then c.order[i]?
    else if k ≤ i then c.order[k - 1]? else c.order[k]?

theorem moveBehind_moved (early : position < i) (inside : i < c.order.length)
    (moved : c.moveBehind position i = .ok c') : c.MovedBehind position i c'.order := by
  intro k
  unfold moveBehind at moved
  split at moved
  · rename_i gap
    have length := List.length_eraseIdx_of_lt inside
    have fits : position + 1 ≤ (c.order.eraseIdx i).length := by omega
    simp only [takeOut_eq inside, ok_bind, putIn_eq fits] at moved
    cases moved
    simp only [List.getElem?_insertIdx, List.getElem?_eraseIdx]
    grind
  · cases moved
    have last : i = position + 1 := by omega
    grind

/-- Where a case stands that stood at `m`, below the one that was moved. -/
def shifted (position m : Nat) : Nat := if m ≤ position then m else m + 1

theorem shifted_surj (early : position < i) (settled : k ≤ i) (other : k ≠ position + 1) :
    ∃ m < i, k = shifted position m := by
  by_cases low : k ≤ position
  · exact ⟨k, by omega, by rw [shifted, if_pos low]⟩
  · exact ⟨k - 1, by omega, by rw [shifted, if_neg (by omega)]; omega⟩

namespace MovedBehind

variable {order : List (Arc n)} (moved : c.MovedBehind position i order)

include moved

theorem atMoved : order[position + 1]? = c.order[i]? := by
  rw [moved, if_neg (by omega), if_pos rfl]

theorem atShifted (below : m < i) : order[shifted position m]? = c.order[m]? := by
  rw [moved, shifted]
  split
  · rfl
  · rw [if_neg (by omega), if_neg (by omega), if_pos (by omega), Nat.add_sub_cancel]

theorem atLater (early : position < i) (later : i < k) : order[k]? = c.order[k]? := by
  rw [moved, if_neg (by omega), if_neg (by omega), if_neg (by omega)]

end MovedBehind

/-- Control falls into the case from an earlier one, and from that one also into the case right behind it. -/
def Hangs (v : View n) (c : CaseOrder n) (k : Nat) (arc : Arc n) : Prop :=
  ∃ j before next, j < k ∧ c.order[j]? = some before ∧ c.order[j + 1]? = some next ∧
    c.FallsInto v before next ∧ c.FallsInto v before arc

/-- If a case is moved behind the one that it is entered from, all others still hang where they did. -/
theorem Hangs.move {arc' source : Arc n} (hangs : Hangs v c m arc') (moved : c.MovedBehind position i order)
    (below : m < i) (here : c.order[i]? = some arc) (atSource : c.order[position]? = some source)
    (enters : c.FallsInto v source arc) : Hangs v { c with order } (shifted position m) arc' := by
  obtain ⟨j, before, next, lower, atBefore, atNext, falls, falls'⟩ := hangs
  have lower' : shifted position j < shifted position m := by
    unfold shifted
    split <;> split <;> omega
  have atBefore' := (moved.atShifted (by omega : j < i)).trans atBefore
  by_cases same : j = position
  · -- the moved case now stands right behind the one that both hang on
    subst same
    cases atSource.symm.trans atBefore
    have stays : shifted j j = j := if_pos (Nat.le_refl j)
    exact ⟨_, source, arc, lower', atBefore', by rw [stays]; exact moved.atMoved.trans here, enters, falls'⟩
  · have behind : shifted position j + 1 = shifted position (j + 1) := by
      unfold shifted
      split <;> split <;> omega
    exact ⟨_, before, next, lower', atBefore', by rw [behind]; exact (moved.atShifted (by omega)).trans atNext, falls, falls'⟩

/-- What holds at every stage: only cases that were settled have blocks or were entered, and those that were entered hang on
another one. -/
structure Chained (v : View n) (s : Stage n) : Prop where
  once : (s.cases.order.map Arc.edge).Nodup
  pending {k : Nat} {arc : Arc n} : s.position ≤ k → s.cases.order[k]? = some arc →
    arc.edge ∉ s.cases.entered ∧ s.cases.membersOf arc.edge = []
  hangs {k : Nat} {arc : Arc n} : s.cases.order[k]? = some arc → arc.edge ∈ s.cases.entered → Hangs v s.cases k arc

theorem index_unique (once : (order.map Arc.edge).Nodup) {j : Nat} {one two : Arc n} (first : order[j]? = some one)
    (second : order[k]? = some two) (same : one.edge = two.edge) : j = k := by
  obtain ⟨inside, rfl⟩ := List.getElem?_eq_some_iff.mp first
  obtain ⟨inside', rfl⟩ := List.getElem?_eq_some_iff.mp second
  have inside : j < (order.map Arc.edge).length := by simpa using inside
  have inside' : k < (order.map Arc.edge).length := by simpa using inside'
  exact (once.getElem_inj_iff).mp (by simpa using same : (order.map Arc.edge)[j] = (order.map Arc.edge)[k])

/-- A case without blocks falls into none, so what is found for it changes nothing for the others. -/
theorem FallsInto.record (fresh : c.membersOf arc.edge = []) {before next : Arc n} (falls : c.FallsInto v before next)
    (found : Branch n) (entered : List EdgeId) : (c.record arc found entered).FallsInto v before next := by
  have other : before.edge ≠ arc.edge := by
    intro same
    obtain ⟨_, _, _, inside⟩ := falls
    rw [same, fresh] at inside
    cases inside
  unfold FallsInto
  rw [membersOf_record other]
  exact falls

namespace Chained

variable {d : Nat}

theorem advance (chained : Chained v ⟨i, d, c⟩) : Chained v ⟨i + 1, d, c⟩ :=
  ⟨chained.once, fun behind => chained.pending (Nat.le_of_succ_le behind), chained.hangs⟩

theorem skip (chained : Chained v ⟨i, d, c⟩) (arc : Arc n) : Chained v ⟨i, d, c.skip arc⟩ := by
  rw [skip_same]
  exact ⟨chained.once, chained.pending, chained.hangs⟩

theorem defer (chained : Chained v ⟨i, d + 1, c⟩) (inside : i < c.order.length) (deferred : c.defer i = .ok c') :
    Chained v ⟨i, d, c'⟩ := by
  obtain ⟨same, perm⟩ := drop_defer inside deferred
  have stays {k : Nat} (early : k < i) := getElem?_defer inside deferred early
  obtain ⟨_, run, whole⟩ := defer_perm inside
  cases deferred.ok_unique run
  have pending {k : Nat} {arc : Arc n} (behind : i ≤ k) (found : c'.order[k]? = some arc) :
      arc.edge ∉ c.entered ∧ c.membersOf arc.edge = [] := by
    have later : (c'.order.drop i)[k - i]? = some arc := by
      rw [List.getElem?_drop, Nat.add_sub_cancel' behind, found]
    obtain ⟨m, found'⟩ := List.mem_iff_getElem?.mp (perm.mem_iff.mp (List.mem_of_getElem? later))
    rw [List.getElem?_drop] at found'
    exact chained.pending (Nat.le_add_right i m) found'
  have once : (c'.order.map Arc.edge).Nodup := (whole.map Arc.edge).nodup_iff.mpr chained.once
  generalize c'.order = order at *
  subst same
  refine ⟨once, pending, fun {k arc} found entered => ?_⟩
  have early : k < i := by
    by_contra late
    exact (pending (Nat.not_lt.mp late) found).1 entered
  rw [stays early] at found
  obtain ⟨j, before, next, lower, atBefore, atNext, falls, falls'⟩ := chained.hangs found entered
  refine ⟨j, before, next, lower, ?_, ?_, falls, falls'⟩
  · exact (stays (by omega)).trans atBefore
  · exact (stays (by omega)).trans atNext

theorem move (chained : Chained v ⟨i, d, c⟩) (here : c.order[i]? = some arc)
    (falls : entranceOf v c i arc = .fallsFrom (some position)) (run : c.moveBehind position i = .ok c') :
    Chained v ⟨i + 1, d, c'⟩ ∧ c'.order[position + 1]? = some arc ∧ c'.membersOf arc.edge = [] ∧ position + 1 ≤ i ∧
      Hangs v c' (position + 1) arc := by
  have inside := here.lt_length
  obtain ⟨early, source, atSource, enters⟩ := fallsFrom_position falls
  obtain ⟨same, _⟩ := drop_moveBehind inside run
  have moved := moveBehind_moved early inside run
  obtain ⟨_, run', perm⟩ := moveBehind_perm position inside
  cases run.ok_unique run'
  obtain ⟨free, fresh⟩ := chained.pending (Nat.le_refl i) here
  have once : (c'.order.map Arc.edge).Nodup := (perm.map Arc.edge).nodup_iff.mpr chained.once
  generalize c'.order = order at *
  subst same
  have atArc : order[position + 1]? = some arc := moved.atMoved.trans here
  have atSource' : order[position]? = some source := by
    rw [moved, if_pos (Nat.le_refl position), atSource]
  refine ⟨⟨once, fun {k arc'} behind found => ?_, fun {k arc'} found entered => ?_⟩, atArc, fresh, early,
    position, source, arc, by omega, atSource', atArc, enters, enters⟩
  · exact chained.pending (Nat.le_of_succ_le behind) ((moved.atLater early behind).symm.trans found)
  · -- only cases that were settled before this one are entered
    have settled : k ≤ i := by
      by_contra late
      have later : i < k := by omega
      exact (chained.pending (Nat.le_of_lt later) ((moved.atLater early later).symm.trans found)).1 entered
    have other : k ≠ position + 1 := by
      rintro rfl
      cases atArc.symm.trans found
      exact free entered
    obtain ⟨m, below, rfl⟩ := shifted_surj early settled other
    exact (chained.hangs ((moved.atShifted below).symm.trans found) entered).move moved below here atSource enters

theorem record (chained : Chained v ⟨i + 1, d, c⟩) (there : c.order[m]? = some arc) (settled : m ≤ i)
    (fresh : c.membersOf arc.edge = []) (found : Branch n) {entered : List EdgeId}
    (adds : ∀ e ∈ entered, e ∈ c.entered ∨ e = arc.edge ∧ Hangs v c m arc) :
    Chained v ⟨i + 1, d, c.record arc found entered⟩ := by
  have hung {k : Nat} {arc' : Arc n} (hangs : Hangs v c k arc') : Hangs v (c.record arc found entered) k arc' := by
    obtain ⟨j, before, next, lower, atBefore, atNext, falls, falls'⟩ := hangs
    exact ⟨j, before, next, lower, atBefore, atNext, falls.record fresh found entered, falls'.record fresh found entered⟩
  refine ⟨chained.once, fun {k arc'} behind listed => ?_, fun {k arc'} listed member => ?_⟩
  · have other : arc'.edge ≠ arc.edge := by
      intro same
      have place := index_unique chained.once listed there same
      simp only at behind
      omega
    obtain ⟨free, none⟩ := chained.pending behind listed
    refine ⟨fun member => ?_, (membersOf_record other found entered).trans none⟩
    rcases adds _ member with old | ⟨new, _⟩
    · exact free old
    · exact other new
  · rcases adds _ member with old | ⟨new, hangs⟩
    · exact hung (chained.hangs listed old)
    · obtain rfl := index_unique chained.once listed there new
      cases there.symm.trans listed
      exact hung hangs

/-- Each turn keeps cases behind those that fall into them. -/
theorem turn {s s' : Stage n} (chained : Chained v s) (turn : Turn v head s s') : Chained v s' := by
  cases turn with
  | skip => exact chained.advance.skip _
  | defer here _ _ deferred => exact chained.defer here.lt_length deferred
  | search here _ _ =>
    exact chained.advance.record here (Nat.le_refl _) (chained.pending (Nat.le_refl _) here).2 _ fun _ => .inl
  | past here falls moved => exact (chained.move here falls moved).1.skip _
  | enter here falls moved _ _ =>
    obtain ⟨chained, there, fresh, early, hangs⟩ := chained.move here falls moved
    refine chained.record there early fresh _ fun e member => ?_
    rcases List.mem_cons.mp member with new | old
    · exact .inr ⟨new, hangs⟩
    · exact .inl old

end Chained

theorem Turns.chained {s : Stage n} (turns : Turns v head (.first v head) s)
    (once : ((v.cases head).map Arc.edge).Nodup) : Chained v s :=
  turns.keeps (fun _ _ chained turn => chained.turn turn) ⟨once, by simp [Stage.first, membersOf], by simp [Stage.first]⟩

theorem getElem?_cases (c : CaseOrder n) (k : Nat) :
    c.cases[k]? = c.order[k]?.map fun arc =>
      { edge := arc.edge
        labels := arc.kind.labels?.getD []
        fallsThrough := (c.order[k + 1]?).any fun next => c.entered.contains next.edge } := by
  simp [cases, List.getElem?_map, List.getElem?_zipIdx, Function.comp_def]

theorem membersOf_switchOf (c : CaseOrder n) (e : EdgeId) :
    (v.switchOf head c).membersOf (.case e) = (c.membersOf e).map Fin.val := by
  simp only [Region.membersOf, View.switchOf, membersOf]
  induction c.members with
  | nil => rfl
  | cons entry rest ih =>
    obtain ⟨key, blocks⟩ := entry
    by_cases same : key = e
    · simp [same]
    · simpa [List.lookup_cons, same, beq_false_of_ne (Ne.symm same)] using ih

end CaseOrder

namespace Graph

variable {g : Graph}

/-- Some block of one case leads to the target of the other one without going back. -/
def FallsInto (g : Graph) (r : Region) (before next : SwitchCase) : Prop :=
  ∃ b ∈ r.membersOf (.case before.edge), ∃ into, g.edges[next.edge]? = some into ∧ g.Onward b into.target

theorem Resolves.onward {v : View g.size} (resolves : g.Resolves v) (wired : g.Wired) {b : Fin g.size} {arc : Arc g.size}
    (member : arc ∈ v.ins b) (ahead : arc.back = false) : g.Onward arc.source b := by
  have listed : arc.edge ∈ g.insOf b := resolves.ins b ▸ List.mem_map_of_mem member
  obtain ⟨source, edge, found, used, _, target⟩ := (wired.mem_ins b arc.edge).mp listed
  obtain ⟨edge', found', source', _, _, back⟩ := resolves.in_names member
  cases found.some_unique found'
  exact ⟨arc.edge, edge, found, used, back.trans ahead, source', target⟩

theorem Resolves.fallsInto {v : View g.size} (resolves : g.Resolves v) (wired : g.Wired) {head : Fin g.size}
    {c : CaseOrder g.size} (listed : ∀ arc ∈ c.order, arc ∈ v.outs head) {j : Nat} {before next : Arc g.size}
    (atBefore : c.order[j]? = some before) (atNext : c.order[k]? = some next) (falls : c.FallsInto v before next) :
    ∃ one two, c.cases[j]? = some one ∧ c.cases[k]? = some two ∧ g.FallsInto (v.switchOf head c) one two := by
  rw [c.getElem?_cases, c.getElem?_cases, atBefore, atNext]
  obtain ⟨arc, enters, ahead, inside⟩ := falls
  obtain ⟨into, found, _, target, _⟩ := resolves.out_names (listed next (List.mem_of_getElem? atNext))
  refine ⟨_, _, rfl, rfl, arc.source, ?_, into, found, target ▸ resolves.onward wired enters ahead⟩
  rw [CaseOrder.membersOf_switchOf]
  exact List.mem_map_of_mem inside

/-- A case that is marked as falling through has a next one, and control falls into that one: from the case itself, or from
an earlier one that also falls into the case behind it. -/
theorem switchRegion_fallsThrough (wired : g.Wired) {v : View g.size} (viewed : g.view = .ok v) {head : Fin g.size}
    {r : Region} (run : v.switchRegion head = .ok r) {kind : SwitchKind} {cases : List SwitchCase}
    (made : r.kind = .switch kind cases) {k : Nat} {listed : SwitchCase} (here : cases[k]? = some listed)
    (flagged : listed.fallsThrough = true) :
    ∃ next, cases[k + 1]? = some next ∧ (g.FallsInto r listed next ∨
      ∃ j before behind, j < k ∧ cases[j]? = some before ∧ cases[j + 1]? = some behind ∧ g.FallsInto r before behind ∧
        g.FallsInto r before next) := by
  have resolves := resolves_of_view viewed
  obtain ⟨s, turns, _, ordered⟩ := v.caseOrder_turns head
  rw [View.switchRegion, ordered] at run
  cases run
  cases made
  have once : ((v.cases head).map Arc.edge).Nodup :=
    (resolves.outs head ▸ wired.outs_nodup head : ((v.outs head).map Arc.edge).Nodup).sublist (List.filter_sublist.map _)
  have among (arc : Arc g.size) (member : arc ∈ s.cases.order) : arc ∈ v.outs head :=
    List.mem_of_mem_filter (turns.perm.mem_iff.mp member)
  have chained := turns.chained once
  rw [s.cases.getElem?_cases, Option.map_eq_some_iff] at here
  obtain ⟨arc, atArc, rfl⟩ := here
  obtain ⟨next, atNext, entered⟩ := (Option.any_eq_true _ _).mp flagged
  obtain ⟨j, before, behind, lower, atBefore, atBehind, into, into'⟩ := chained.hangs atNext (by simpa using entered)
  obtain ⟨one, two, atOne, atTwo, first⟩ := resolves.fallsInto wired among atBefore atBehind into
  obtain ⟨one', three, atOne', atThree, second⟩ := resolves.fallsInto wired among atBefore atNext into'
  cases Option.some.inj (atOne.symm.trans atOne')
  refine ⟨three, atThree, ?_⟩
  rcases Nat.lt_succ_iff_lt_or_eq.mp lower with earlier | same
  · exact .inr ⟨j, one, two, earlier, atOne, atTwo, first, second⟩
  · subst same
    rw [s.cases.getElem?_cases, atArc] at atOne
    cases atOne
    exact .inl second

/-- The first of two cases that were swapped goes on with the second one. -/
theorem switchRegion_fallsThrough_swapped : ∃ (g : Graph) (v : View g.size) (head : Fin g.size) (r : Region),
    g.Wired ∧ g.view = .ok v ∧ v.switchRegion head = .ok r ∧
    r.kind = .switch .withDefault [⟨1, [.int 2], true⟩, ⟨0, [.int 1], false⟩, ⟨2, [.fallback], false⟩] ∧
    g.FallsInto r ⟨1, [.int 2], true⟩ ⟨0, [.int 1], false⟩ := by
  obtain ⟨_, g, wired, numbered, shaped⟩ := @Edit.numbered_of_any Edit.swapped
    (fun g => g.view.toOption.any fun v => (List.finRange g.size).any fun head =>
      (v.switchRegion head).toOption.any fun r => decide (r.kind = .switch .withDefault
        [⟨1, [.int 2], true⟩, ⟨0, [.int 1], false⟩, ⟨2, [.fallback], false⟩])) (by decide +kernel) (by decide +kernel)
  have wired := (wired.searched numbered).1.wired wired
  obtain ⟨v, viewed, shaped⟩ := of_any_toOption shaped
  obtain ⟨head, _, shaped⟩ := List.any_eq_true.mp shaped
  obtain ⟨r, run, shaped⟩ := of_any_toOption shaped
  have made := of_decide_eq_true shaped
  obtain ⟨next, second, falls⟩ := switchRegion_fallsThrough (k := 0) wired viewed run made rfl rfl
  cases second
  refine ⟨g, v, head, r, wired, viewed, run, made, falls.resolve_right ?_⟩
  rintro ⟨j, _, _, negative, _⟩
  cases negative

end Graph

namespace Edit

/-- A switch whose first case goes on with the second or with the third one. -/
def parted : List Edit :=
  [newBlock 0, newBlock 1, newBlock 2, newBlock 3, newBlock 4, addSwitchCase 0 1 [.int 1], addSwitchCase 0 2 [.int 2],
    addSwitchCase 0 3 [.int 3], addSwitchCase 0 4 [.fallback], setConds 1 3 2]

end Edit

namespace Graph

/-- The third case comes to stand between the first and the second one and is marked, although it leads nowhere. -/
theorem switchRegion_flags_dead_end : ∃ (before g : Graph) (v : View g.size) (head : Fin g.size) (r : Region),
    before.Wired ∧ before.renumber = .ok g ∧ g.view = .ok v ∧ v.switchRegion head = .ok r ∧
    r.kind = .switch .withDefault
      [⟨0, [.int 1], true⟩, ⟨2, [.int 3], true⟩, ⟨1, [.int 2], false⟩, ⟨3, [.fallback], false⟩] ∧
    ¬ g.FallsInto r ⟨2, [.int 3], true⟩ ⟨1, [.int 2], false⟩ := by
  obtain ⟨before, g, wired, numbered, shaped⟩ := @Edit.numbered_of_any Edit.parted
    (fun g => (g.edges.toList.all fun edge => decide (edge.source ≠ 3)) && g.view.toOption.any fun v =>
      (List.finRange g.size).any fun head => (v.switchRegion head).toOption.any fun r =>
        decide (r.membersOf (.case 2) = [3] ∧ r.kind = .switch .withDefault
          [⟨0, [.int 1], true⟩, ⟨2, [.int 3], true⟩, ⟨1, [.int 2], false⟩, ⟨3, [.fallback], false⟩]))
    (by decide +kernel) (by decide +kernel)
  obtain ⟨ends, shaped⟩ := Bool.and_eq_true_iff.mp shaped
  obtain ⟨v, viewed, shaped⟩ := of_any_toOption shaped
  obtain ⟨head, _, shaped⟩ := List.any_eq_true.mp shaped
  obtain ⟨r, run, shaped⟩ := of_any_toOption shaped
  obtain ⟨members, made⟩ := of_decide_eq_true shaped
  refine ⟨before, g, v, head, r, wired, numbered, viewed, run, made, ?_⟩
  rintro ⟨b, inside, _, _, e, edge, found, _, _, source, _⟩
  rw [members, List.mem_singleton] at inside
  have leaves := List.all_eq_true.mp ends edge (Array.mem_toList_iff.mpr (Array.mem_of_getElem? found))
  exact of_decide_eq_true leaves (source.trans inside)

end Graph

end Unstack
