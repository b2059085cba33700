import Mathlib.Tactic.Ring
import Unstack.Graph.Dominator
import Unstack.Proofs.Graph.Dominance

namespace Unstack.Flow

variable {n : Nat}

/-- `x` is `b` or lies above it in the tree. -/
def Above (t : Dominators n) (x b : Fin n) : Prop := Relation.ReflTransGen (fun b d => t.get b = some d) b x

theorem Above.refl (t : Dominators n) (b : Fin n) : Above t b b := Relation.ReflTransGen.refl

theorem Above.trans {t : Dominators n} {x y b : Fin n} (upper : Above t x y) (lower : Above t y b) : Above t x b :=
  Relation.ReflTransGen.trans lower upper

theorem above_iff {t : Dominators n} {x b d : Fin n} (found : t.get b = some d) :
    Above t x b ↔ x = b ∨ Above t x d := by
  constructor
  · intro above
    rcases Relation.ReflTransGen.cases_head above with same | ⟨d', found', above⟩
    · exact .inl same.symm
    · cases found.some_unique found'
      exact .inr above
  · intro either
    rcases either with rfl | above
    · exact .refl t _
    · exact Relation.ReflTransGen.head found above

theorem get_set (t : Dominators n) (b : Fin n) (d : Option (Fin n)) (c : Fin n) :
    Vector.get (t.set b.val d b.isLt) c = if c = b then d else t.get c := by
  have same : b.val = c.val ↔ c = b := by rw [eq_comm, Fin.ext_iff]
  have entry : (t.set b.val d b.isLt)[c.val] = if b.val = c.val then d else t[c.val] :=
    Vector.getElem_set b.isLt c.isLt
  simp only [same] at entry
  exact entry

/-- What the search in depth tells about a graph: which blocks are reachable, in falling order of their
numbers, and that each but the start has a predecessor with a higher number. -/
structure Surveyed (f : Flow n) (alive : Fin n → Bool) (number : Fin n → Nat) (order : List (Fin n))
    (start : Fin n) : Prop where
  preds (b c : Fin n) : c ∈ ((f.ins.get b).map Arc.source).filter alive ↔ f.Steps c b
  listed (b : Fin n) : b ∈ order ↔ f.Reaches start b
  falling : order.Pairwise fun a b => number b < number a
  bound (b : Fin n) : b ∈ order → number b < n
  parent (b : Fin n) : b ∈ order → b ≠ start → ∃ c, f.Steps c b ∧ c ∈ order ∧ number b < number c

/-- A table of some reachable blocks in which numbers rise up to the start. -/
structure Rooted (number : Fin n → Nat) (order : List (Fin n)) (start : Fin n) (t : Dominators n) : Prop where
  root : t.get start = some start
  rises (b d : Fin n) : b ≠ start → t.get b = some d → number b < number d ∧ (t.get d).isSome
  within (b : Fin n) : (t.get b).isSome → b ∈ order

section Algorithm

variable {f : Flow n} {alive : Fin n → Bool} {number : Fin n → Nat} {order : List (Fin n)} {start : Fin n}
  {t : Dominators n} {a b c d x : Fin n}

namespace Surveyed

variable (survey : Surveyed f alive number order start)

include survey

theorem injective (left : a ∈ order) (right : b ∈ order) (same : number a = number b) : a = b := by
  have once : (order.map number).Nodup :=
    List.pairwise_map.mpr (survey.falling.imp fun lower => Nat.ne_of_gt lower)
  exact List.inj_on_of_nodup_map once left right same

theorem order_eq : order = start :: order.drop 1 := by
  have member : start ∈ order := (survey.listed start).mpr .refl
  cases shape : order with
  | nil =>
    rw [shape] at member
    cases member
  | cons first rest =>
    have top (c : Fin n) (later : c ∈ order) : number c ≤ number first := by
      have falling := survey.falling
      rw [shape] at falling later
      rcases List.mem_cons.mp later with rfl | later
      · exact Nat.le_refl _
      · exact (List.rel_of_pairwise_cons falling later).le
    have here : first ∈ order := by simp [shape]
    have same : first = start := by
      by_contra other
      obtain ⟨c, _, above, higher⟩ := survey.parent first here other
      have := top c above
      omega
    rw [same]
    rfl

theorem number_le_start (inside : b ∈ order) : number b ≤ number start := by
  have falling := survey.falling
  rw [survey.order_eq] at inside falling
  rcases List.mem_cons.mp inside with rfl | later
  · exact Nat.le_refl _
  · exact (List.rel_of_pairwise_cons falling later).le

/-- A dominator is left later by the search. -/
theorem number_le_of_dominates (inside : b ∈ order) (dominates : Dominates f.Steps start a b) :
    number b ≤ number a := by
  induction gap : n - number b using Nat.strong_induction_on generalizing b with
  | _ gap ih =>
    by_cases same : a = b
    · rw [same]
    · have other : b ≠ start := by
        intro atStart
        subst atStart
        exact same dominates.eq_start
      obtain ⟨c, one, above, higher⟩ := survey.parent b inside other
      have bound := survey.bound c above
      have lower := ih (n - number c) (by omega) above (dominates.pred one same) rfl
      omega

end Surveyed

namespace Rooted

variable (rooted : Rooted number order start t)

include rooted

theorem above_start : Above t x start ↔ x = start := by
  constructor
  · intro above
    induction above with
    | refl => rfl
    | tail _ found ih =>
      subst ih
      exact (rooted.root.some_unique found).symm
  · intro same
    exact same ▸ .refl t start

theorem known (known : (t.get b).isSome) (above : Above t x b) : (t.get x).isSome := by
  induction above with
  | refl => exact known
  | @tail y x _ found ih =>
    by_cases atStart : y = start
    · subst atStart
      cases rooted.root.some_unique found
      exact ih
    · exact (rooted.rises y x atStart found).2

theorem eq_or_lt (above : Above t x b) : x = b ∨ number b < number x := by
  induction above with
  | refl => exact .inl rfl
  | @tail y x _ found ih =>
    by_cases atStart : y = start
    · subst atStart
      cases rooted.root.some_unique found
      exact ih
    · have higher := (rooted.rises y x atStart found).1
      rcases ih with same | lower
      · exact .inr (same ▸ higher)
      · exact .inr (lower.trans higher)

theorem number_le (above : Above t x b) : number b ≤ number x := by
  rcases rooted.eq_or_lt above with same | lower
  · rw [same]
  · exact lower.le

end Rooted

/-- What dominates a block dominates the block above it in the tree. -/
def Guarded (f : Flow n) (start : Fin n) (t : Dominators n) : Prop :=
  ∀ b d x, b ≠ start → t.get b = some d → x ≠ b → Dominates f.Steps start x b → Dominates f.Steps start x d

/-- Of two blocks the lower one may go up: what lies above both stays above both. -/
theorem Surveyed.climb (survey : Surveyed f alive number order start) (rooted : Rooted number order start t)
    (guarded : Guarded f start t) (known : (t.get a).isSome) (known' : (t.get b).isSome)
    (lower : number a < number b) :
    ∃ up, t.get a = some up ∧ up ≠ a ∧ number a < number up ∧ (t.get up).isSome ∧
      (∀ x, Above t x a ∧ Above t x b ↔ Above t x up ∧ Above t x b) ∧
      ∀ x, Dominates f.Steps start x a → Dominates f.Steps start x b → Dominates f.Steps start x up := by
  obtain ⟨up, found⟩ := Option.isSome_iff_exists.mp known
  have inside := rooted.within b known'
  have other : a ≠ start := by
    intro same
    subst same
    have := survey.number_le_start inside
    omega
  obtain ⟨higher, known''⟩ := rooted.rises a up other found
  refine ⟨up, found, ?_, higher, known'', fun x => ?_, fun x atLower atUpper => ?_⟩
  · intro same
    rw [same] at higher
    omega
  · rw [above_iff found]
    refine and_congr_left fun above => or_iff_right fun same => ?_
    have := rooted.number_le above
    rw [same] at this
    omega
  · refine guarded a up x other found (fun same => ?_) atLower
    have := survey.number_le_of_dominates inside atUpper
    rw [same] at this
    omega

/-- Two climbs meet in the lowest block above both. -/
theorem Surveyed.meet (survey : Surveyed f alive number order start) (rooted : Rooted number order start t)
    (guarded : Guarded f start t) (fuel : Nat) (known : (t.get a).isSome) (known' : (t.get b).isSome)
    (enough : 2 * n ≤ fuel + number a + number b) :
    ∃ m, meet number t fuel a b = .ok m ∧ (t.get m).isSome ∧ (∀ x, Above t x m ↔ Above t x a ∧ Above t x b) ∧
      ∀ x, Dominates f.Steps start x a → Dominates f.Steps start x b → Dominates f.Steps start x m := by
  have bound := survey.bound a (rooted.within a known)
  have bound' := survey.bound b (rooted.within b known')
  induction fuel generalizing a b with
  | zero => omega
  | succ fuel ih =>
    rw [Flow.meet]
    by_cases same : a = b
    · subst same
      exact ⟨a, if_pos rfl, known, fun x => (and_self_iff).symm, fun x dominates _ => dominates⟩
    · rw [if_neg same]
      rcases Nat.lt_trichotomy (number a) (number b) with lower | level | higher
      · obtain ⟨up, found, moved, rises, known'', common, dominates⟩ :=
          survey.climb rooted guarded known known' lower
        have bound'' := survey.bound up (rooted.within up known'')
        obtain ⟨m, run, knownM, meets, dominatesM⟩ := ih known'' known' (by omega) bound'' bound'
        refine ⟨m, ?_, knownM, fun x => (meets x).trans (common x).symm, fun x atA atB => ?_⟩
        · simp only [if_pos lower, found, if_neg moved, run]
        · exact dominatesM x (dominates x atA atB) atB
      · exact absurd (survey.injective (rooted.within a known) (rooted.within b known') level) same
      · obtain ⟨up, found, moved, rises, known'', common, dominates⟩ :=
          survey.climb rooted guarded known' known higher
        have bound'' := survey.bound up (rooted.within up known'')
        obtain ⟨m, run, knownM, meets, dominatesM⟩ := ih known known'' (by omega) bound bound''
        refine ⟨m, ?_, knownM, fun x => ?_, fun x atA atB => ?_⟩
        · simp only [if_neg (Nat.lt_asymm higher), if_pos higher, found, if_neg moved, run]
        · rw [meets x, and_comm, ← common x, and_comm]
        · exact dominatesM x atA (dominates x atB atA)

/-- The block is the nearest above all those of a list that are known. -/
structure Nearest (f : Flow n) (start : Fin n) (t : Dominators n) (blocks : List (Fin n)) (m : Fin n) : Prop where
  known : (t.get m).isSome
  above (x : Fin n) : Above t x m ↔ ∀ p ∈ blocks, (t.get p).isSome → Above t x p
  dominates (x : Fin n) : (∀ p ∈ blocks, (t.get p).isSome → Dominates f.Steps start x p) →
    Dominates f.Steps start x m

/-- What is found from the blocks of a list: nothing as long as none of them is known. -/
def Finds (f : Flow n) (start : Fin n) (t : Dominators n) (blocks : List (Fin n)) : Option (Fin n) → Prop
  | none => ∀ p ∈ blocks, t.get p = none
  | some m => Nearest f start t blocks m

theorem forall_known_snoc {blocks : List (Fin n)} {holds : Fin n → Prop} :
    (∀ p ∈ blocks ++ [b], (t.get p).isSome → holds p) ↔
      (∀ p ∈ blocks, (t.get p).isSome → holds p) ∧ ((t.get b).isSome → holds b) := by
  rw [List.forall_mem_append, List.forall_mem_singleton]

theorem Surveyed.meetPred (survey : Surveyed f alive number order start) (rooted : Rooted number order start t)
    (guarded : Guarded f start t) {met : List (Fin n)} {found : Option (Fin n)} (so_far : Finds f start t met found)
    (known : (t.get b).isSome) :
    ∃ m, (match found with
      | none => return some b
      | some cur => do return some (← Flow.meet number t (n * n + 1) b cur) : Checked (Option (Fin n))) =
        .ok (some m) ∧ Nearest f start t (met ++ [b]) m := by
  cases found with
  | none =>
    have only {holds : Fin n → Prop} : (∀ p ∈ met ++ [b], (t.get p).isSome → holds p) ↔ holds b := by
      rw [forall_known_snoc]
      refine ⟨fun all => all.2 known, fun here => ⟨fun p member known' => ?_, fun _ => here⟩⟩
      rw [so_far p member] at known'
      cases known'
    exact ⟨b, rfl, known, fun x => only.symm, fun x all => only.mp all⟩
  | some cur =>
    have square : 2 * n ≤ n * n + 1 := by
      cases n with
      | zero => omega
      | succ k =>
        have expanded : (k + 1) * (k + 1) = k * k + 2 * k + 1 := by ring
        omega
    obtain ⟨m, run, known', meets, dominates⟩ := survey.meet rooted guarded (n * n + 1) known so_far.known (by omega)
    refine ⟨m, by simp only [run, ok_bind]; rfl, known', fun x => ?_, fun x all => ?_⟩
    · rw [meets x, so_far.above x, forall_known_snoc, and_comm]
      simp [known]
    · obtain ⟨before, here⟩ := forall_known_snoc.mp all
      exact dominates x (here known) (so_far.dominates x before)

/-- By induction on the predecessors that are left. -/
theorem Surveyed.meetPreds (survey : Surveyed f alive number order start) (rooted : Rooted number order start t)
    (guarded : Guarded f start t) {preds : List (Fin n)} (member : b ∈ preds) (known : (t.get b).isSome) :
    ∃ m, meetPreds number t preds = .ok (some m) ∧ Nearest f start t preds m := by
  let holds (rest : List (Fin n)) (found : Option (Fin n)) : Prop :=
    ∃ met, met ++ rest = preds ∧ Finds f start t met found
  obtain ⟨found, run, met, split, facts⟩ : ∃ found, Flow.meetPreds number t preds = .ok found ∧ holds [] found := by
    refine foldlM_total holds _ preds none ⟨[], rfl, by simp [Finds]⟩ fun pred rest found so_far => ?_
    obtain ⟨met, split, facts⟩ := so_far
    have split' : (met ++ [pred]) ++ rest = preds := by simpa using split
    cases atPred : t.get pred with
    | none =>
      refine ⟨found, rfl, met ++ [pred], split', ?_⟩
      have skip {holds : Fin n → Prop} : (∀ p ∈ met ++ [pred], (t.get p).isSome → holds p) ↔
          ∀ p ∈ met, (t.get p).isSome → holds p := by
        rw [forall_known_snoc]
        simp [atPred]
      cases found with
      | none => exact List.forall_mem_append.mpr ⟨facts, by simpa using atPred⟩
      | some m =>
        exact ⟨facts.known, fun x => (facts.above x).trans skip.symm, fun x all => facts.dominates x (skip.mp all)⟩
    | some d =>
      obtain ⟨m, run, nearest⟩ := survey.meetPred rooted guarded facts (b := pred) (by simp [atPred])
      exact ⟨some m, run, met ++ [pred], split', nearest⟩
  rw [List.append_nil] at split
  subst split
  cases found with
  | none =>
    rw [facts b member] at known
    cases known
  | some m => exact ⟨m, run, facts⟩

end Algorithm

end Unstack.Flow
