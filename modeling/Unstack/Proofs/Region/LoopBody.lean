import Mathlib.Data.Prod.Lex
import Unstack.Proofs.Region.Oriented
import Unstack.Region.Loop

namespace Unstack

/-- Where a block stands in the source: its line, then the index of its first operation. -/
def Block.place (b : Block) : Int ×ₗ Nat := toLex (b.line, b.pc)

theorem Block.isBefore_iff {a b : Block} : a.isBefore b = true ↔ a.place ≤ b.place := by
  simp [isBefore, place, Prod.Lex.le_iff]

namespace View

variable {n : Nat} {v : View n} {start head b : Fin n} {reached : Fin n → Prop} {body body' body'' : LoopBody n}
  {state : Bool × LoopBody n} {bound fuel : Nat} {place : Int ×ₗ Nat}

/-- A way ahead from one block to the next, exceptions apart. -/
def Flows (v : View n) (a b : Fin n) : Prop :=
  ∃ arc ∈ v.outs a, arc.kind.isHandler = false ∧ arc.back = false ∧ arc.target = b

/-- A way back from the block to the head, exceptions apart. -/
def Closes (v : View n) (head b : Fin n) : Prop :=
  ∃ arc ∈ v.outs b, arc.kind.isHandler = false ∧ arc.back = true ∧ arc.target = head

/-- The block goes back to the head, and no way ahead of it leads to the head or to a member. -/
def Turns (v : View n) (head : Fin n) (members : List (Fin n)) (b : Fin n) : Prop :=
  v.Closes head b ∧ ∀ t, v.Flows b t → t ≠ head ∧ t ∉ members

/-- The latest block so far stands at the place or behind it. -/
def Covers (v : View n) (place : Int ×ₗ Nat) (last : Option (Fin n)) : Prop :=
  ∃ l, last = some l ∧ place ≤ (v.block l).place

theorem covers_later (v : View n) (old : Option (Fin n)) (b : Fin n) : v.Covers (v.block b).place (v.later old b) := by
  unfold later
  split
  · exact ⟨b, rfl, le_rfl⟩
  · rename_i last
    split
    · exact ⟨b, rfl, le_rfl⟩
    · rename_i behind
      rw [isBefore, Block.isBefore_iff, not_le] at behind
      exact ⟨last, rfl, behind.le⟩

theorem Covers.later {old : Option (Fin n)} (covers : v.Covers place old) (b : Fin n) :
    v.Covers place (v.later old b) := by
  obtain ⟨last, rfl, behind⟩ := covers
  unfold View.later
  simp only
  split
  · rename_i before
    exact ⟨b, rfl, behind.trans (Block.isBefore_iff.mp before)⟩
  · exact ⟨last, rfl, behind⟩

theorem later_cases (v : View n) (old : Option (Fin n)) (b : Fin n) : v.later old b = old ∨ v.later old b = some b := by
  unfold later
  split
  · exact .inr rfl
  · split
    · exact .inr rfl
    · exact .inl rfl

/-- What a search for a loop does. It enters blocks with numbers below the bound, follows all their ways ahead, and takes
those that go back to the head and those with a way ahead into the loop. What it had settled before it does not settle
again. The last block that it names turns back, and it is not before any other block that it has entered and that does. -/
structure Extends (v : View n) (reached : Fin n → Prop) (head : Fin n) (bound : Nat) (body body' : LoopBody n) : Prop where
  seen : body.seen ⊆ body'.seen
  once : body.seen.Nodup → body'.seen.Nodup
  within : body.members ⊆ body.seen → body'.members ⊆ body'.seen
  new (y : Fin n) : y ∈ body'.seen → y ∉ body.seen → reached y ∧ v.number y < bound
  kept (y : Fin n) : y ∈ body.seen → (y ∈ body'.members ↔ y ∈ body.members)
  onward (y t : Fin n) : y ∈ body'.seen → y ∉ body.seen → v.Flows y t → t = head ∨ t ∈ body'.seen
  member (y : Fin n) : y ∈ body'.seen → y ∉ body.seen →
    (y ∈ body'.members ↔ y ≠ head ∧ (v.Closes head y ∨ ∃ t, v.Flows y t ∧ (t = head ∨ t ∈ body'.members)))
  grows {place : Int ×ₗ Nat} : v.Covers place body.last → v.Covers place body'.last
  covers (y : Fin n) : y ∈ body'.seen → y ∉ body.seen → v.Turns head body'.members y →
    v.Covers (v.block y).place body'.last
  last (l : Fin n) : body'.last = some l →
    body.last = some l ∨ l ∈ body'.seen ∧ l ∉ body.seen ∧ v.Turns head body'.members l

namespace Extends

theorem refl (body : LoopBody n) : v.Extends reached head bound body body where
  seen := fun _ => id
  once := id
  within := id
  new _ seen new := absurd seen new
  kept _ _ := .rfl
  onward _ _ seen new := absurd seen new
  member _ seen new := absurd seen new
  grows := id
  covers _ seen new := absurd seen new
  last _ := .inl

/-- What a block leads to was settled with it. -/
theorem turns_iff (extension : v.Extends reached head bound body body')
    (settled : ∀ t, v.Flows b t → t = head ∨ t ∈ body.seen) :
    v.Turns head body'.members b ↔ v.Turns head body.members b := by
  refine and_congr_right fun _ => forall₂_congr fun t flows => ?_
  rcases settled t flows with same | known
  · simp [same]
  · rw [extension.kept t known]

theorem trans (first : v.Extends reached head bound body body') (second : v.Extends reached head bound body' body'') :
    v.Extends reached head bound body body'' where
  seen := fun _ member => second.seen (first.seen member)
  once := second.once ∘ first.once
  within := second.within ∘ first.within
  new y seen new := by
    by_cases early : y ∈ body'.seen
    · exact first.new y early new
    · exact second.new y seen early
  kept y old := (second.kept y (first.seen old)).trans (first.kept y old)
  onward y t seen new flows := by
    by_cases early : y ∈ body'.seen
    · exact (first.onward y t early new flows).imp_right fun known => second.seen known
    · exact second.onward y t seen early flows
  member y seen new := by
    by_cases early : y ∈ body'.seen
    · rw [second.kept y early, first.member y early new]
      refine and_congr_right fun _ => or_congr_right (exists_congr fun t => and_congr_right fun flows => ?_)
      rcases first.onward y t early new flows with same | known
      · simp [same]
      · rw [second.kept t known]
    · exact second.member y seen early
  grows covers := second.grows (first.grows covers)
  covers y seen new turns := by
    by_cases early : y ∈ body'.seen
    · exact second.grows (first.covers y early new ((second.turns_iff fun t => first.onward y t early new).mp turns))
    · exact second.covers y seen early turns
  last l last := by
    rcases second.last l last with early | ⟨seen, new, turns⟩
    · refine (first.last l early).imp_right fun found => ?_
      obtain ⟨seen, new, turns⟩ := found
      exact ⟨second.seen seen, new, (second.turns_iff fun t => first.onward l t seen new).mpr turns⟩
    · exact .inr ⟨seen, fun old => new (first.seen old), turns⟩

theorem mono (extension : v.Extends reached head bound body body') {bound' : Nat} (higher : bound ≤ bound') :
    v.Extends reached head bound' body body' :=
  { extension with new := fun y member new => (extension.new y member new).imp_right fun lower => by omega }

end Extends

def closes (v : View n) (head b : Fin n) : Bool :=
  ((v.outs b).filter fun arc => !arc.kind.isHandler).any fun arc => arc.back && arc.target == head

/-- The ways ahead of a block that a search follows. -/
def waysAhead (v : View n) (b : Fin n) : List (Arc n) :=
  ((v.outs b).filter fun arc => !arc.kind.isHandler).filter fun arc => !arc.back

theorem closes_iff : v.closes head b = true ↔ v.Closes head b := by
  simp [closes, Closes]

theorem flows_iff {t : Fin n} : v.Flows b t ↔ ∃ arc ∈ v.waysAhead b, arc.target = t := by
  simp [waysAhead, Flows, and_assoc, and_left_comm]

/-- One way ahead of a block that is searched. -/
def tryWay (v : View n) (head : Fin n) (fuel : Nat) (state : Bool × LoopBody n) (arc : Arc n) : Bool × LoopBody n :=
  if arc.target == head || state.2.members.contains arc.target then (true, state.2)
  else if state.2.seen.contains arc.target then state
  else (state.1 || (v.exploreLoop head fuel arc.target state.2).1, (v.exploreLoop head fuel arc.target state.2).2)

def settled (v : View n) (head b : Fin n) (state : Bool × LoopBody n) : Bool × LoopBody n :=
  if !state.1 && !v.closes head b then (false, state.2)
  else (true, { state.2 with
    members := if b = head then state.2.members else state.2.members ++ [b]
    last := if state.1 then state.2.last else v.later state.2.last b })

theorem exploreLoop_eq (v : View n) (head : Fin n) (fuel : Nat) (b : Fin n) (body : LoopBody n) :
    v.exploreLoop head (fuel + 1) b body = v.settled head b
      ((v.waysAhead b).foldl (v.tryWay head fuel) (false, { body with seen := b :: body.seen })) := by
  rw [exploreLoop]
  rfl

theorem settled_fst : (v.settled head b state).1 = (state.1 || v.closes head b) := by
  unfold settled
  split
  · rename_i leaves
    simp only [Bool.and_eq_true, Bool.not_eq_true'] at leaves
    simp [leaves]
  · rename_i leads
    simp only [Bool.and_eq_true, Bool.not_eq_true', not_and_or, Bool.not_eq_false] at leads
    simpa using leads

theorem settled_seen : (v.settled head b state).2.seen = state.2.seen := by
  unfold settled
  split <;> rfl

theorem mem_settled {y : Fin n} : y ∈ (v.settled head b state).2.members ↔
    y ∈ state.2.members ∨ y = b ∧ b ≠ head ∧ (state.1 || v.closes head b) = true := by
  unfold settled
  split
  · rename_i leaves
    simp only [Bool.and_eq_true, Bool.not_eq_true'] at leaves
    simp [leaves]
  · rename_i leads
    simp only [Bool.and_eq_true, Bool.not_eq_true', not_and_or, Bool.not_eq_false] at leads
    by_cases atHead : b = head <;> simp [atHead, leads]

theorem settled_last (v : View n) (head b : Fin n) (state : Bool × LoopBody n) :
    (v.settled head b state).2.last = state.2.last ∨
    state.1 = false ∧ v.closes head b = true ∧ (v.settled head b state).2.last = v.later state.2.last b := by
  unfold settled
  split
  · exact .inl rfl
  · rename_i counts
    cases leads : state.1 with
    | true => exact .inl rfl
    | false => exact .inr ⟨rfl, by simpa [leads] using counts, rfl⟩

/-- What is found behind a block stays, when the block itself is settled: no block at or behind it has a way ahead to it. -/
theorem Extends.settled (descends : ∀ a b, reached a → v.Flows a b → reached b ∧ v.number b < v.number a)
    (atBlock : reached b) (fresh : b ∉ body.seen)
    (extension : v.Extends reached head (v.number b) { body with seen := b :: body.seen } state.2)
    (outside : b ∉ state.2.members) (ahead : ∀ t, v.Flows b t → t = head ∨ t ∈ state.2.seen)
    (leads : state.1 = true ↔ ∃ t, v.Flows b t ∧ (t = head ∨ t ∈ state.2.members)) :
    v.Extends reached head (v.number b + 1) body (v.settled head b state).2 := by
  have apart {y : Fin n} (other : y ≠ b) (new : y ∉ body.seen) : y ∉ b :: body.seen := by simp [other, new]
  have entered (y : Fin n) (seen : y ∈ state.2.seen) (new : y ∉ body.seen) : reached y ∧ v.number y ≤ v.number b := by
    by_cases here : y = b
    · exact ⟨here ▸ atBlock, here ▸ Nat.le_refl _⟩
    · exact (extension.new y seen (apart here new)).imp_right Nat.le_of_lt
  have stays {y t : Fin n} (at_behind : reached y ∧ v.number y ≤ v.number b) (flows : v.Flows y t) :
      t ∈ (v.settled head b state).2.members ↔ t ∈ state.2.members := by
    rw [mem_settled, or_iff_left]
    rintro ⟨rfl, _⟩
    have lower := (descends _ _ at_behind.1 flows).2
    omega
  have turns_iff {y : Fin n} (at_behind : reached y ∧ v.number y ≤ v.number b) :
      v.Turns head (v.settled head b state).2.members y ↔ v.Turns head state.2.members y :=
    and_congr_right fun _ => forall₂_congr fun t flows => by rw [stays at_behind flows]
  have grows {place : Int ×ₗ Nat} (covers : v.Covers place state.2.last) :
      v.Covers place (v.settled head b state).2.last := by
    rcases v.settled_last head b state with same | ⟨_, _, same⟩
    · rwa [same]
    · rw [same]
      exact covers.later b
  have kept (y : Fin n) (old : y ∈ body.seen) : y ∈ (v.settled head b state).2.members ↔ y ∈ body.members := by
    have other : y ≠ b := ne_of_mem_of_not_mem old fresh
    rw [mem_settled, extension.kept y (.tail _ old)]
    simp [other]
  refine ⟨?seen, ?once, ?within, ?new, kept, ?onward, ?member, grows ∘ extension.grows, ?covers, ?last⟩ <;>
    simp only [settled_seen]
  case seen => exact fun _ old => extension.seen (.tail _ old)
  case once => exact fun nodup => extension.once (List.nodup_cons.mpr ⟨fresh, nodup⟩)
  case within =>
    intro within y member
    rcases mem_settled.mp member with old | ⟨rfl, _⟩
    · exact extension.within (fun _ old => .tail _ (within old)) old
    · exact extension.seen (.head _)
  case new => exact fun y seen new => (entered y seen new).imp_right Nat.lt_succ_of_le
  case onward =>
    intro y t seen new flows
    by_cases same : y = b
    · exact ahead t (same ▸ flows)
    · exact extension.onward y t seen (apart same new) flows
  case member =>
    intro y seen new
    have behind : (∃ t, v.Flows y t ∧ (t = head ∨ t ∈ (v.settled head b state).2.members)) ↔
        ∃ t, v.Flows y t ∧ (t = head ∨ t ∈ state.2.members) :=
      exists_congr fun t => and_congr_right fun flows => or_congr_right (stays (entered y seen new) flows)
    rw [behind, mem_settled]
    by_cases same : y = b
    · subst same
      rw [← leads, ← closes_iff, Bool.or_eq_true, or_comm (a := state.1 = true)]
      simp [outside]
    · rw [← extension.member y seen (apart same new)]
      simp [same]
  case covers =>
    intro y seen new turns
    rw [turns_iff (entered y seen new)] at turns
    by_cases here : y = b
    · subst here
      -- a block that turns back does not lead into the loop, so it is compared with the last one
      have ends : state.1 = false := by
        rw [Bool.eq_false_iff, ne_eq, leads]
        rintro ⟨t, flows, inside⟩
        exact inside.elim (turns.2 t flows).1 (turns.2 t flows).2
      have last : (v.settled head y state).2.last = v.later state.2.last y := by
        simp [View.settled, ends, closes_iff.mpr turns.1]
      rw [last]
      exact v.covers_later _ y
    · exact grows (extension.covers y seen (apart here new) turns)
  case last =>
    intro l last
    have early (named : state.2.last = some l) : body.last = some l ∨ l ∈ state.2.seen ∧ l ∉ body.seen ∧
        v.Turns head (v.settled head b state).2.members l := by
      refine (extension.last l named).imp_right fun found => ?_
      obtain ⟨seen, new, turns⟩ := found
      have new := List.not_mem_of_not_mem_cons new
      exact ⟨seen, new, (turns_iff (entered l seen new)).mpr turns⟩
    rcases v.settled_last head b state with same | ⟨ends, closes, same⟩
    · exact early (same ▸ last)
    · rcases v.later_cases state.2.last b with old | here
      · exact early (old ▸ same ▸ last)
      · cases (same.trans here).some_unique last
        refine .inr ⟨extension.seen (.head _), fresh, (turns_iff ⟨atBlock, Nat.le_refl _⟩).mpr ?_⟩
        refine ⟨closes_iff.mp closes, fun t flows => not_or.mp fun inside => ?_⟩
        rw [leads.mpr ⟨t, flows, inside⟩] at ends
        cases ends

/-- A search can go on from here with so many steps in depth. -/
structure Ready (fuel : Nat) (body : LoopBody n) : Prop where
  once : body.seen.Nodup
  within : body.members ⊆ body.seen
  enough : n ≤ fuel + body.seen.length

theorem Ready.after (ready : Ready fuel body) (extension : v.Extends reached head bound body body') :
    Ready fuel body' := by
  have longer := (ready.once.subperm extension.seen).length_le
  have enough := ready.enough
  exact ⟨extension.once ready.once, extension.within ready.within, by omega⟩

theorem Ready.enter (ready : Ready (fuel + 1) body) (fresh : b ∉ body.seen) :
    Ready fuel { body with seen := b :: body.seen } := by
  have enough := ready.enough
  exact ⟨List.nodup_cons.mpr ⟨fresh, ready.once⟩, fun _ member => .tail _ (ready.within member),
    by simp only [List.length_cons]; omega⟩

/-- A search never runs out of steps at a block that it has not entered. -/
theorem Ready.seen_of_zero (ready : Ready 0 body) : b ∈ body.seen := by
  by_contra fresh
  have all := (List.nodup_cons.mpr ⟨fresh, ready.once⟩).length_le_card
  have enough := ready.enough
  simp only [List.length_cons, Fintype.card_fin] at all
  omega

/-- The search at a block enters it, settles it, and tells whether it is in the loop. -/
def Settles (v : View n) (reached : Fin n → Prop) (head : Fin n) (fuel : Nat) : Prop :=
  ∀ (b : Fin n) (body : LoopBody n), reached b → b ∉ body.seen → Ready fuel body →
    v.Extends reached head (v.number b + 1) body (v.exploreLoop head fuel b body).2 ∧
      b ∈ (v.exploreLoop head fuel b body).2.seen ∧
      (b ≠ head → ((v.exploreLoop head fuel b body).1 = true ↔ b ∈ (v.exploreLoop head fuel b body).2.members))

section Ways

variable (settles : v.Settles reached head fuel)

include settles

theorem tryWay_extends (ready : Ready fuel state.2) {arc : Arc n}
    (ahead : reached arc.target ∧ v.number arc.target < bound) :
    v.Extends reached head bound state.2 (v.tryWay head fuel state arc).2 ∧
      (arc.target = head ∨ arc.target ∈ (v.tryWay head fuel state arc).2.seen) ∧
      ((v.tryWay head fuel state arc).1 = true ↔
        state.1 = true ∨ arc.target = head ∨ arc.target ∈ (v.tryWay head fuel state arc).2.members) := by
  unfold tryWay
  split
  · rename_i inside
    simp only [Bool.or_eq_true, beq_iff_eq, List.contains_eq_mem, decide_eq_true_eq] at inside
    exact ⟨.refl _, inside.imp_right fun member => ready.within member, by simp [inside]⟩
  · rename_i outside
    simp only [Bool.or_eq_true, beq_iff_eq, List.contains_eq_mem, decide_eq_true_eq, not_or] at outside
    split
    · rename_i seen
      exact ⟨.refl _, .inr (by simpa using seen), by simp [outside]⟩
    · rename_i fresh
      obtain ⟨extension, entered, member⟩ := settles arc.target state.2 ahead.1 (by simpa using fresh) ready
      refine ⟨extension.mono (by omega), .inr entered, ?_⟩
      rw [Bool.or_eq_true, member outside.1]
      simp [outside.1]

theorem ways_extend (arcs : List (Arc n)) (state : Bool × LoopBody n) (ready : Ready fuel state.2)
    (ahead : ∀ arc ∈ arcs, reached arc.target ∧ v.number arc.target < bound) :
    v.Extends reached head bound state.2 (arcs.foldl (v.tryWay head fuel) state).2 ∧
      (∀ arc ∈ arcs, arc.target = head ∨ arc.target ∈ (arcs.foldl (v.tryWay head fuel) state).2.seen) ∧
      ((arcs.foldl (v.tryWay head fuel) state).1 = true ↔ state.1 = true ∨
        ∃ arc ∈ arcs, arc.target = head ∨ arc.target ∈ (arcs.foldl (v.tryWay head fuel) state).2.members) := by
  induction arcs generalizing state with
  | nil => exact ⟨.refl _, by simp, by simp⟩
  | cons arc rest ih =>
    obtain ⟨first, here, leads⟩ := tryWay_extends settles ready (ahead arc (.head _))
    obtain ⟨later, there, leads'⟩ := ih _ (ready.after first) fun other member => ahead other (.tail _ member)
    rw [List.foldl_cons]
    -- the later ways do not take a block into the loop that this one left outside
    have stays : arc.target = head ∨ arc.target ∈ (v.tryWay head fuel state arc).2.members ↔
        arc.target = head ∨ arc.target ∈ (rest.foldl (v.tryWay head fuel) (v.tryWay head fuel state arc)).2.members := by
      rcases here with same | seen
      · simp [same]
      · rw [later.kept _ seen]
    refine ⟨first.trans later, fun other member => ?_, ?_⟩
    · rcases List.mem_cons.mp member with rfl | member
      · exact here.imp_right fun seen => later.seen seen
      · exact there other member
    · rw [leads', leads, stays, List.exists_mem_cons_iff, or_assoc]

end Ways

/-- By induction on the fuel: numbers fall along every way. -/
theorem settles_of_descends (descends : ∀ a b, reached a → v.Flows a b → reached b ∧ v.number b < v.number a)
    (fuel : Nat) : v.Settles reached head fuel := by
  induction fuel with
  | zero =>
    intro b body _ fresh ready
    exact absurd ready.seen_of_zero fresh
  | succ fuel ih =>
    intro b body atBlock fresh ready
    have ahead (arc : Arc n) (member : arc ∈ v.waysAhead b) := descends b _ atBlock (flows_iff.mpr ⟨arc, member, rfl⟩)
    obtain ⟨extension, seen, leads⟩ :=
      ways_extend ih _ (false, { body with seen := b :: body.seen }) (ready.enter fresh) ahead
    rw [exploreLoop_eq]
    generalize (v.waysAhead b).foldl (v.tryWay head fuel) (false, { body with seen := b :: body.seen }) = state at *
    have outside : b ∉ state.2.members :=
      fun inside => fresh (ready.within ((extension.kept b (.head _)).mp inside))
    refine ⟨extension.settled descends atBlock fresh outside (fun t flows => ?_) ?_, ?_, fun other => ?_⟩
    · obtain ⟨arc, member, rfl⟩ := flows_iff.mp flows
      exact seen arc member
    · simp only [leads, flows_iff, Bool.false_eq_true, false_or]
      grind
    · rw [settled_seen]
      exact extension.seen (.head _)
    · rw [settled_fst, mem_settled]
      simp [outside, other]

end View

end Unstack
