import Mathlib.Algebra.BigOperators.Fin
import Mathlib.Algebra.Order.BigOperators.Group.Finset
import Unstack.Proofs.Dominator.Tree

namespace Unstack.Flow

variable {n : Nat} {f : Flow n} {alive : Fin n → Bool} {number : Fin n → Nat} {order : List (Fin n)} {start : Fin n}
  {t : Dominators n} {a b c d x : Fin n}

/-- The table in which `d` stands above `b`. -/
def entered (t : Dominators n) (b d : Fin n) : Dominators n := t.set b.val (some d) b.isLt

theorem entered_get (t : Dominators n) (b d c : Fin n) :
    (entered t b d).get c = if c = b then some d else t.get c := get_set t b (some d) c

theorem entered_known (known : (t.get c).isSome) : ((entered t b d).get c).isSome := by
  rw [entered_get]
  split
  · rfl
  · exact known

theorem known_of_entered (here : c ≠ b) (known : ((entered t b d).get c).isSome) : (t.get c).isSome := by
  rwa [entered_get, if_neg here] at known

theorem entered_self (found : t.get b = some d) : entered t b d = t := by
  apply Vector.ext
  intro i inside
  have entry := entered_get t b d ⟨i, inside⟩
  by_cases here : (⟨i, inside⟩ : Fin n) = b
  · subst here
    exact entry.trans ((if_pos rfl).trans found.symm)
  · exact entry.trans (if_neg here)

theorem above_entered_of_not (outside : ¬ Above t b c) : Above (entered t b d) x c ↔ Above t x c := by
  have keeps (y : Fin n) (elsewhere : ¬ Above t b y) : (entered t b d).get y = t.get y := by
    rw [entered_get, if_neg]
    intro same
    exact elsewhere (same ▸ .refl t b)
  have onward {y z : Fin n} (elsewhere : ¬ Above t b y) (found : t.get y = some z) : ¬ Above t b z :=
    fun above => elsewhere ((above_iff found).mpr (.inr above))
  constructor
  · intro above
    induction above using Relation.ReflTransGen.head_induction_on with
    | refl => exact .refl t x
    | head found _ ih =>
      rw [keeps _ outside] at found
      exact (above_iff found).mpr (.inr (ih (onward outside found)))
  · intro above
    induction above using Relation.ReflTransGen.head_induction_on with
    | refl => exact .refl _ x
    | head found _ ih =>
      have elsewhere := onward outside found
      rw [← keeps _ outside] at found
      exact (above_iff found).mpr (.inr (ih elsewhere))

/-- What lies above a block below is cut off after `b` and goes on from `d`. -/
theorem Rooted.above_entered (rooted : Rooted number order start t) (higher : number b < number d)
    (below : Above t b c) :
    Above (entered t b d) x c ↔ (Above t x c ∧ number x ≤ number b) ∨ Above t x d := by
  have apart : ¬ Above t b d := by
    intro above
    have := rooted.number_le above
    omega
  have atEntry : Above (entered t b d) x b ↔ (Above t x b ∧ number x ≤ number b) ∨ Above t x d := by
    rw [above_iff (d := d) (by rw [entered_get, if_pos rfl]), above_entered_of_not apart]
    refine or_congr_left ⟨fun same => ?_, fun both => ?_⟩
    · subst same
      exact ⟨.refl t x, Nat.le_refl _⟩
    · rcases rooted.eq_or_lt both.1 with same | lower
      · exact same
      · omega
  induction below using Relation.ReflTransGen.head_induction_on with
  | refl => exact atEntry
  | @head c e found above ih =>
    by_cases here : c = b
    · subst here
      exact atEntry
    · have onward : Above (entered t b d) x e ↔ (Above t x e ∧ number x ≤ number b) ∨ Above t x d := ih
      rw [above_iff (d := e) (by rw [entered_get, if_neg here]; exact found), above_iff found, onward]
      have lower := rooted.number_le ((above_iff found).mpr (.inr above))
      constructor
      · intro either
        rcases either with rfl | both | later
        · exact .inl ⟨.inl rfl, lower⟩
        · exact .inl ⟨.inr both.1, both.2⟩
        · exact .inr later
      · intro either
        rcases either with ⟨rfl | above, low⟩ | later
        · exact .inl rfl
        · exact .inr (.inl ⟨above, low⟩)
        · exact .inr (.inr later)

/-- What holds of a table while a round still has the blocks of `rest` to go through. Reachable blocks are
known from the highest number down. A block lies at most as high as the nearest block above its
predecessors, so that it can only rise; for blocks that were visited in this round, or as far as it meets
blocks that were not, what lies above it lies above each predecessor with a higher number. -/
structure Sketch (f : Flow n) (number : Fin n → Nat) (order : List (Fin n)) (start : Fin n) (rest : List (Fin n))
    (t : Dominators n) : Prop extends Rooted number order start t where
  filled (b c : Fin n) : b ∈ order → c ∈ order → number b < number c → (t.get b).isSome → (t.get c).isSome
  visited (c : Fin n) : c ∈ order → c ∉ rest → (t.get c).isSome
  guarded : Guarded f start t
  low (b x : Fin n) : (t.get b).isSome → b ≠ start →
    (∀ p, f.Steps p b → (t.get p).isSome → Above t x p) → Above t x b
  beside (c q u : Fin n) : (t.get c).isSome → u ≠ c → Above t u c → (u ∈ rest ∨ c ∉ rest) → f.Steps q c →
    number c < number q → (t.get q).isSome → Above t u q

/-- How high a table stands. -/
def height (number : Fin n → Nat) (t : Dominators n) : Nat :=
  ∑ b, match t.get b with
    | some d => number d + 1
    | none => 0

/-- The turn of one block in a round: `d` is the nearest block above its known predecessors. -/
structure Turn (f : Flow n) (number : Fin n → Nat) (order : List (Fin n)) (start : Fin n) (rest : List (Fin n))
    (t : Dominators n) (b d : Fin n) : Prop extends Sketch f number order start (b :: rest) t where
  inside : b ∈ order
  other : b ≠ start
  earlier (c : Fin n) : c ∈ order → c ∉ b :: rest → number b < number c
  later (c : Fin n) : c ∈ rest → number c < number b
  known : (t.get d).isSome
  above (x : Fin n) : Above t x d ↔ ∀ p, f.Steps p b → (t.get p).isSome → Above t x p
  dominates (x : Fin n) : (∀ p, f.Steps p b → (t.get p).isSome → Dominates f.Steps start x p) →
    Dominates f.Steps start x d
  higher : number b < number d

namespace Turn

variable {rest : List (Fin n)} (turn : Turn f number order start rest t b d)

include turn

theorem apart : d ≠ b := by
  intro same
  have := turn.higher
  rw [same] at this
  omega

theorem rises_from_known (known : (t.get b).isSome) : Above t d b :=
  turn.low b d known turn.other ((turn.above d).mp (.refl t d))

theorem not_above_of_lt (higher : number b < number c) : ¬ Above t b c := by
  intro above
  have := turn.number_le above
  omega

/-- Blocks only rise: what lies above a block afterwards lay above it before. -/
theorem above_of_entered (known : (t.get c).isSome) (above : Above (entered t b d) x c) : Above t x c := by
  by_cases below : Above t b c
  · have knownHere := turn.toRooted.known known below
    rcases (turn.above_entered turn.higher below).mp above with before | beyond
    · exact before.1
    · exact (beyond.trans (turn.rises_from_known knownHere)).trans below
  · exact (above_entered_of_not below).mp above

theorem rooted_entered : Rooted number order start (entered t b d) where
  root := by
    rw [entered_get, if_neg turn.other.symm]
    exact turn.root
  rises c e other found := by
    rw [entered_get] at found
    split at found
    · rename_i here
      cases found
      rw [here]
      exact ⟨turn.higher, entered_known turn.known⟩
    · have upper := turn.rises c e other found
      exact ⟨upper.1, entered_known upper.2⟩
  within c known := by
    by_cases here : c = b
    · rw [here]
      exact turn.inside
    · exact turn.within c (known_of_entered here known)

theorem filled_entered (a c : Fin n) (left : a ∈ order) (right : c ∈ order) (lower : number a < number c)
    (known : ((entered t b d).get a).isSome) : ((entered t b d).get c).isSome := by
  by_cases here : a = b
  · subst here
    by_cases late : c ∈ a :: rest
    · rcases List.mem_cons.mp late with rfl | late
      · omega
      · have := turn.later c late
        omega
    · exact entered_known (turn.visited c right late)
  · exact entered_known (turn.filled a c left right lower (known_of_entered here known))

theorem guarded_entered : Guarded f start (entered t b d) := by
  intro c e x other found apart dominates
  rw [entered_get] at found
  split at found
  · rename_i here
    cases found
    subst here
    exact turn.dominates x fun p one _ => dominates.pred one apart
  · exact turn.guarded c e x other found apart dominates

/-- What is above all known ways into a block is above the block. -/
theorem low_entered (survey : Surveyed f alive number order start) (c x : Fin n)
    (known : ((entered t b d).get c).isSome) (other : c ≠ start)
    (all : ∀ p, f.Steps p c → ((entered t b d).get p).isSome → Above (entered t b d) x p) :
    Above (entered t b d) x c := by
  have before (p : Fin n) (one : f.Steps p c) (knownP : (t.get p).isSome) : Above t x p :=
    turn.above_of_entered knownP (all p one (entered_known knownP))
  by_cases here : c = b
  · subst here
    exact (turn.above_entered turn.higher (.refl t c)).mpr (.inr ((turn.above x).mpr before))
  · have knownC := known_of_entered here known
    have above := turn.low c x knownC other before
    by_cases below : Above t b c
    · refine (turn.above_entered turn.higher below).mpr ?_
      by_cases short : number x ≤ number b
      · exact .inl ⟨above, short⟩
      · -- `b` lies above the parent as well, which leads to `x` only through the new entry.
        have insideC := turn.within c knownC
        obtain ⟨q, one, insideQ, higherQ⟩ := survey.parent c insideC other
        have knownQ := turn.filled c q insideC insideQ higherQ knownC
        have belowQ := turn.beside c q b knownC (Ne.symm here) below (.inl (.head _)) one higherQ knownQ
        have atParent := (turn.above_entered turn.higher belowQ).mp (all q one (entered_known knownQ))
        exact .inr (atParent.resolve_left fun early => short early.2)
    · exact (above_entered_of_not below).mpr above

theorem beside_entered (c q u : Fin n) (known : ((entered t b d).get c).isSome) (apart : u ≠ c)
    (above : Above (entered t b d) u c) (open_ : u ∈ rest ∨ c ∉ rest) (one : f.Steps q c) (higherQ : number c < number q)
    (knownQ : ((entered t b d).get q).isSome) : Above (entered t b d) u q := by
  by_cases here : c = b
  · subst here
    have notHere : q ≠ c := by
      intro same
      rw [same] at higherQ
      omega
    have beyond : Above t u d := by
      refine ((turn.above_entered turn.higher (.refl t c)).mp above).resolve_left fun early => ?_
      rcases turn.eq_or_lt early.1 with same | lower
      · exact apart same
      · have := early.2
        omega
    have aboveQ := (turn.above u).mp beyond q one (known_of_entered notHere knownQ)
    exact (above_entered_of_not (turn.not_above_of_lt higherQ)).mpr aboveQ
  · have knownC := known_of_entered here known
    have insideC := turn.within c knownC
    have insideQ := turn.rooted_entered.within q knownQ
    have knownQ' := turn.filled c q insideC insideQ higherQ knownC
    have aboveC := turn.above_of_entered knownC above
    rcases open_ with unvisited | visited
    · have lowU := turn.later u unvisited
      have aboveQ := turn.beside c q u knownC apart aboveC (.inl (.tail b unvisited)) one higherQ knownQ'
      by_cases below : Above t b q
      · exact (turn.above_entered turn.higher below).mpr (.inl ⟨aboveQ, lowU.le⟩)
      · exact (above_entered_of_not below).mpr aboveQ
    · have outside : c ∉ b :: rest := by simp [here, visited]
      have lowB := turn.earlier c insideC outside
      have aboveQ := turn.beside c q u knownC apart aboveC (.inr outside) one higherQ knownQ'
      exact (above_entered_of_not (turn.not_above_of_lt (lowB.trans higherQ))).mpr aboveQ

/-- One improved entry keeps the invariant of the round. -/
theorem sketch (survey : Surveyed f alive number order start) :
    Sketch f number order start rest (entered t b d) where
  toRooted := turn.rooted_entered
  filled := turn.filled_entered
  visited c inside outside := by
    by_cases here : c = b
    · rw [entered_get, if_pos here]
      rfl
    · exact entered_known (turn.visited c inside (by simp [here, outside]))
  guarded := turn.guarded_entered
  low := turn.low_entered survey
  beside := turn.beside_entered

/-- An entry that changes moves up, which bounds the rounds. -/
theorem height_lt : entered t b d = t ∨ height number t < height number (entered t b d) := by
  have others (c : Fin n) (elsewhere : c ≠ b) : (entered t b d).get c = t.get c := by
    rw [entered_get, if_neg elsewhere]
  have here : (entered t b d).get b = some d := by rw [entered_get, if_pos rfl]
  have single (lower : (match t.get b with | some e => number e + 1 | none => 0) < number d + 1) :
      height number t < height number (entered t b d) := by
    refine Finset.sum_lt_sum (fun c _ => ?_) ⟨b, Finset.mem_univ b, ?_⟩
    · by_cases same : c = b
      · subst same
        simp only [here]
        exact lower.le
      · rw [others c same]
    · simpa only [here] using lower
  cases found : t.get b with
  | none => exact .inr (single (by simp [found]))
  | some e =>
    have above := (above_iff found).mp (turn.rises_from_known (by simp [found]))
    rcases turn.eq_or_lt (above.resolve_left turn.apart) with same | lower
    · exact .inl (entered_self (same ▸ found))
    · exact .inr (single (by rw [found]; exact Nat.succ_lt_succ lower))

end Turn

theorem Surveyed.improveAt (survey : Surveyed f alive number order start) {before rest : List (Fin n)}
    (split : order = before ++ b :: rest) (started : start ∈ before)
    (sketch : Sketch f number order start (b :: rest) t) :
    ∃ d, f.improveAt alive number t b = .ok (entered t b d) ∧ Turn f number order start rest t b d := by
  have falling := survey.falling
  rw [split, List.pairwise_append, List.pairwise_cons] at falling
  obtain ⟨_, ⟨later, _⟩, across⟩ := falling
  have inside : b ∈ order := by simp [split]
  have other : b ≠ start := by
    intro same
    have := across start started b (.head _)
    rw [same] at this
    omega
  have earlier (c : Fin n) (member : c ∈ order) (outside : c ∉ b :: rest) : number b < number c := by
    rw [split, List.mem_append] at member
    exact across c (member.resolve_right outside) b (.head _)
  obtain ⟨c, one, insideC, higher⟩ := survey.parent b inside other
  have outside : c ∉ b :: rest := by
    intro member
    rcases List.mem_cons.mp member with rfl | late
    · omega
    · have := later c late
      omega
  have known := sketch.visited c insideC outside
  have member := (survey.preds b c).mpr one
  obtain ⟨d, run, nearest⟩ := survey.meetPreds sketch.toRooted sketch.guarded member known
  have above (x : Fin n) : Above t x d ↔ ∀ p, f.Steps p b → (t.get p).isSome → Above t x p := by
    rw [nearest.above x]
    simp only [survey.preds]
  refine ⟨d, ?_,
    { toSketch := sketch, inside, other, earlier, later, above, known := nearest.known, dominates := ?_, higher := ?_ }⟩
  · simp only [Flow.improveAt, run, ok_bind]
    rfl
  · intro x all
    exact nearest.dominates x fun p pred => all p ((survey.preds b p).mp pred)
  · have := sketch.number_le ((above d).mp (.refl t d) c one known)
    omega

/-- The block lies right below the nearest block above its predecessors. -/
def Settled (f : Flow n) (t : Dominators n) (b : Fin n) : Prop :=
  ∃ d, t.get b = some d ∧ ∀ x, Above t x d ↔ ∀ p, f.Steps p b → (t.get p).isSome → Above t x p

/-- A round ends with a higher table, or with the same one if all blocks are settled. -/
theorem Surveyed.improve (survey : Surveyed f alive number order start)
    (sketch : Sketch f number order start (order.drop 1) t) :
    ∃ t', f.improve alive number order t = .ok t' ∧ Sketch f number order start [] t' ∧
      ((t' = t ∧ ∀ b ∈ order.drop 1, Settled f t b) ∨ height number t < height number t') := by
  let holds (rest : List (Fin n)) (t' : Dominators n) : Prop :=
    ∃ before, order = start :: before ++ rest ∧ Sketch f number order start rest t' ∧
      ((t' = t ∧ ∀ b ∈ before, Settled f t b) ∨ height number t < height number t')
  have first : holds (order.drop 1) t := ⟨[], survey.order_eq, sketch, .inl ⟨rfl, by simp⟩⟩
  obtain ⟨t', run, before, split, last, outcome⟩ : ∃ t', f.improve alive number order t = .ok t' ∧ holds [] t' := by
    refine foldlM_total holds _ (order.drop 1) t first fun b rest t' so_far => ?_
    obtain ⟨before, split, sketch', outcome⟩ := so_far
    obtain ⟨d, run, turn⟩ := survey.improveAt split (.head _) sketch'
    refine ⟨_, run, before ++ [b], by simpa using split, turn.sketch survey, ?_⟩
    rcases turn.height_lt with same | higher
    · rw [same]
      refine outcome.imp_left fun still => ?_
      obtain ⟨unchanged, settled⟩ := still
      subst unchanged
      refine ⟨rfl, List.forall_mem_append.mpr ⟨settled, ?_⟩⟩
      rw [List.forall_mem_singleton]
      refine ⟨d, ?_, turn.above⟩
      rw [← same, entered_get, if_pos rfl]
    · right
      rcases outcome with ⟨rfl, _⟩ | risen
      · exact higher
      · exact risen.trans higher
  refine ⟨t', run, last, outcome.imp_left fun still => ⟨still.1, fun b member => still.2 b ?_⟩⟩
  rw [split] at member
  simpa using member

theorem Rooted.height_le (rooted : Rooted number order start t) (survey : Surveyed f alive number order start) :
    height number t ≤ n * n := by
  have each (b : Fin n) : (match t.get b with | some d => number d + 1 | none => 0) ≤ n := by
    cases found : t.get b with
    | none => exact Nat.zero_le n
    | some d =>
      have known := rooted.known (b := b) (by simp [found]) ((above_iff found).mpr (.inr (.refl t d)))
      exact survey.bound d (rooted.within d known)
  calc height number t ≤ ∑ _b : Fin n, n := Finset.sum_le_sum fun b _ => each b
    _ = n * n := by simp

theorem Sketch.again (sketch : Sketch f number order start [] t) (rest : List (Fin n)) :
    Sketch f number order start rest t :=
  { sketch with
    visited := fun c inside _ => sketch.visited c inside List.not_mem_nil
    beside := fun c q u known apart above _ => sketch.beside c q u known apart above (.inr List.not_mem_nil) }

/-- Rounds come to an end, since each of them but the last raises the table. -/
theorem Surveyed.settle (survey : Surveyed f alive number order start) (fuel : Nat)
    (sketch : Sketch f number order start (order.drop 1) t) (enough : n * n < fuel + height number t) :
    ∃ t', f.settle alive number order fuel t = .ok t' ∧ Sketch f number order start [] t' ∧
      ∀ b ∈ order.drop 1, Settled f t' b := by
  induction fuel generalizing t with
  | zero =>
    have := sketch.height_le survey
    omega
  | succ fuel ih =>
    obtain ⟨next, run, last, outcome⟩ := survey.improve sketch
    simp only [Flow.settle, run, ok_bind]
    rcases outcome with ⟨rfl, settled⟩ | higher
    · exact ⟨next, if_pos rfl, last, settled⟩
    · have changed : next ≠ t := by
        intro same
        rw [same] at higher
        omega
      obtain ⟨t', run', final⟩ := ih (last.again _) (by omega)
      exact ⟨t', by rw [if_neg changed, run'], final⟩

theorem unsettled_get (start b : Fin n) : (unsettled start).get b = if b = start then some start else none := by
  refine (get_set _ start (some start) b).trans ?_
  simp [Vector.get]

theorem Surveyed.unsettled (survey : Surveyed f alive number order start) :
    Sketch f number order start (order.drop 1) (unsettled start) := by
  have known_iff (b : Fin n) : ((Flow.unsettled start).get b).isSome ↔ b = start := by
    rw [unsettled_get]
    split <;> simp [*]
  have root : (Flow.unsettled start).get start = some start := by rw [unsettled_get, if_pos rfl]
  have only (b d : Fin n) (found : (Flow.unsettled start).get b = some d) : b = start :=
    (known_iff b).mp (by simp [found])
  refine ⟨⟨root, fun b d other found => absurd (only b d found) other, fun b known => ?_⟩, ?_, ?_, ?_, ?_, ?_⟩
  · rw [(known_iff b).mp known]
    exact (survey.listed start).mpr .refl
  · intro b c _ inside lower known
    rw [(known_iff b).mp known] at lower
    have := survey.number_le_start inside
    omega
  · intro c inside outside
    rw [survey.order_eq, List.mem_cons] at inside
    exact (known_iff c).mpr (inside.resolve_right outside)
  · intro b d x other found
    exact absurd (only b d found) other
  · intro b x known other
    exact absurd ((known_iff b).mp known) other
  · intro c q u known _ _ _ _ higher known'
    rw [(known_iff c).mp known, (known_iff q).mp known'] at higher
    omega

/-- In a table where all blocks are settled the tree shows what dominates a block. -/
theorem Surveyed.above_iff_dominates (survey : Surveyed f alive number order start)
    (sketch : Sketch f number order start [] t) (settled : ∀ b ∈ order.drop 1, Settled f t b) (inside : b ∈ order) :
    Above t x b ↔ Dominates f.Steps start x b := by
  have known (c : Fin n) (inside : c ∈ order) : (t.get c).isSome := sketch.visited c inside List.not_mem_nil
  constructor
  · intro above
    rw [dominates_iff]
    intro avoids
    -- Whatever the start reaches around `x` does not lie below `x`.
    have around (y : Fin n) (reaches : Relation.ReflTransGen (fun c e => f.Steps c e ∧ e ≠ x) start y) :
        f.Reaches start y ∧ ¬ Above t x y := by
      induction reaches with
      | refl => exact ⟨.refl, fun above => avoids.1 (sketch.above_start.mp above).symm⟩
      | @tail y z _ one ih =>
        refine ⟨ih.1.tail one.1, fun above => ih.2 ?_⟩
        have other : z ≠ start := by
          intro same
          rw [same] at above one
          exact one.2 (sketch.above_start.mp above).symm
        have insideZ : z ∈ order := (survey.listed z).mpr (ih.1.tail one.1)
        rw [survey.order_eq, List.mem_cons] at insideZ
        obtain ⟨d, found, meets⟩ := settled z (insideZ.resolve_left other)
        have beyond := ((above_iff found).mp above).resolve_left (Ne.symm one.2)
        exact (meets x).mp beyond y one.1 (known y ((survey.listed y).mpr ih.1))
    exact (around b avoids.2).2 above
  · intro dominates
    induction gap : n - number b using Nat.strong_induction_on generalizing b with
    | _ gap ih =>
      by_cases same : x = b
      · rw [same]
        exact .refl t b
      · have other : b ≠ start := by
          intro atStart
          subst atStart
          exact same dominates.eq_start
        obtain ⟨d, found⟩ := Option.isSome_iff_exists.mp (known b inside)
        obtain ⟨higher, knownD⟩ := sketch.rises b d other found
        have insideD := sketch.within d knownD
        have bound := survey.bound d insideD
        have upper := ih (n - number d) (by omega) insideD (sketch.guarded b d x other found same dominates) rfl
        exact (above_iff found).mpr (.inr upper)

theorem Surveyed.above (survey : Surveyed f alive number order start) (rooted : Rooted number order start t)
    (fuel : Nat) (known : (t.get b).isSome) (enough : n < fuel + number b) :
    ∃ r, above t a fuel b = .ok r ∧ (r = true ↔ Above t a b) := by
  induction fuel generalizing b with
  | zero =>
    have := survey.bound b (rooted.within b known)
    omega
  | succ fuel ih =>
    rw [Flow.above]
    by_cases here : b = a
    · exact ⟨true, if_pos here, by simp [here, Above.refl]⟩
    · obtain ⟨up, found⟩ := Option.isSome_iff_exists.mp known
      rw [if_neg here, found]
      by_cases atStart : b = start
      · subst atStart
        cases rooted.root.some_unique found
        refine ⟨false, if_pos rfl, ?_⟩
        rw [rooted.above_start]
        simp [Ne.symm here]
      · obtain ⟨higher, known'⟩ := rooted.rises b up atStart found
        have moved : up ≠ b := by
          intro same
          rw [same] at higher
          omega
        obtain ⟨r, run, answer⟩ := ih known' (by omega)
        refine ⟨r, by simp only [if_neg moved, run], answer.trans ?_⟩
        rw [above_iff found]
        exact (or_iff_right (Ne.symm here)).symm

/-- A table says of every reachable block what dominates it, and nothing of any other block. -/
structure Resolved (f : Flow n) (start : Fin n) (t : Dominators n) : Prop where
  root : t.get start = some start
  unknown (b : Fin n) : ¬ f.Reaches start b → t.get b = none
  immediate (b : Fin n) : f.Reaches start b → b ≠ start → ∃ d, t.get b = some d ∧ d ≠ b ∧ f.Reaches start d ∧
    Dominates f.Steps start d b ∧ ∀ x, Dominates f.Steps start x b → x ≠ b → Dominates f.Steps start x d
  antisymm (a b : Fin n) : f.Reaches start a → f.Reaches start b → Dominates f.Steps start a b →
    Dominates f.Steps start b a → a = b
  dominates (a b : Fin n) : f.Reaches start b →
    ∃ r, dominates t a b = .ok r ∧ (r = true ↔ Dominates f.Steps start a b)

/-- The rounds end before their limit, with all dominators. -/
theorem Surveyed.resolved (survey : Surveyed f alive number order start) :
    ∃ t, f.settle alive number order (n * n + 2) (Flow.unsettled start) = .ok t ∧ Resolved f start t := by
  obtain ⟨t, run, sketch, settled⟩ := survey.settle (n * n + 2) survey.unsettled (by omega)
  have agrees {x b : Fin n} (inside : b ∈ order) := survey.above_iff_dominates (x := x) sketch settled inside
  have known (c : Fin n) (inside : c ∈ order) : (t.get c).isSome := sketch.visited c inside List.not_mem_nil
  refine ⟨t, run, sketch.root, fun b unreached => ?_, fun b reached other => ?_, fun a b left right upper lower => ?_,
    fun a b reached => ?_⟩
  · by_contra found
    exact unreached ((survey.listed b).mp (sketch.within b (Option.isSome_iff_ne_none.mpr found)))
  · have inside := (survey.listed b).mpr reached
    obtain ⟨d, found⟩ := Option.isSome_iff_exists.mp (known b inside)
    obtain ⟨higher, knownD⟩ := sketch.rises b d other found
    have insideD := sketch.within d knownD
    refine ⟨d, found, ?_, (survey.listed d).mp insideD, ?_, fun x dominates apart => ?_⟩
    · intro same
      rw [same] at higher
      omega
    · exact (agrees inside).mp ((above_iff found).mpr (.inr (.refl t d)))
    · exact (agrees insideD).mp (((above_iff found).mp ((agrees inside).mpr dominates)).resolve_left apart)
  · have insideA := (survey.listed a).mpr left
    have insideB := (survey.listed b).mpr right
    have above := survey.number_le_of_dominates insideB upper
    have below := survey.number_le_of_dominates insideA lower
    exact survey.injective insideA insideB (by omega)
  · have inside := (survey.listed b).mpr reached
    obtain ⟨r, run, answer⟩ := survey.above sketch.toRooted (n + 1) (a := a) (known b inside) (by omega)
    exact ⟨r, run, answer.trans (agrees inside)⟩

end Unstack.Flow
