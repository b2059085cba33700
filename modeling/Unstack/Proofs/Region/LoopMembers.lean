import Unstack.Proofs.Region.LoopBody

namespace Unstack.View

variable {n : Nat} {v : View n} {start head : Fin n} {reached : Fin n → Prop}

/-- The block leads ahead to one that goes back to the head. -/
def Returns (v : View n) (head b : Fin n) : Prop := ∃ c, Relation.ReflTransGen v.Flows b c ∧ v.Closes head c

namespace Oriented

variable (oriented : v.Oriented start reached) {b : Fin n}

include oriented

theorem flows {a : Fin n} (atBlock : reached a) (flows : v.Flows a b) : reached b ∧ v.number b < v.number a := by
  obtain ⟨arc, leaves, _, ahead, rfl⟩ := flows
  exact ⟨oriented.onward atBlock leaves, oriented.forward atBlock leaves ahead⟩

theorem loopBody_extends (atHead : reached head) :
    v.Extends (fun b => reached b ∧ Relation.ReflTransGen v.Flows head b) head (v.number head + 1) ⟨[], [], none⟩
      (v.loopBody head) ∧ head ∈ (v.loopBody head).seen := by
  have descends (a b : Fin n) (known : reached a ∧ Relation.ReflTransGen v.Flows head a) (flows : v.Flows a b) :
      (reached b ∧ Relation.ReflTransGen v.Flows head b) ∧ v.number b < v.number a :=
    ⟨⟨(oriented.flows known.1 flows).1, known.2.tail flows⟩, (oriented.flows known.1 flows).2⟩
  obtain ⟨extension, entered, _⟩ := settles_of_descends descends n head ⟨[], [], none⟩ ⟨atHead, .refl⟩ (by simp)
    ⟨by simp, by simp, by simp⟩
  exact ⟨extension, entered⟩

/-- The loop of a head is what the head leads to and what leads back to the head. -/
theorem mem_loopBody (atHead : reached head) :
    b ∈ (v.loopBody head).members ↔ b ≠ head ∧ Relation.ReflTransGen v.Flows head b ∧ v.Returns head b := by
  obtain ⟨extension, entered⟩ := oriented.loopBody_extends atHead
  have within (y : Fin n) (member : y ∈ (v.loopBody head).members) : y ∈ (v.loopBody head).seen :=
    extension.within (by simp) member
  have onward (y t : Fin n) (seen : y ∈ (v.loopBody head).seen) (flows : v.Flows y t) : t ∈ (v.loopBody head).seen := by
    rcases extension.onward y t seen (by simp) flows with rfl | known
    · exact entered
    · exact known
  have reaches (y : Fin n) (leads : Relation.ReflTransGen v.Flows head y) : y ∈ (v.loopBody head).seen := by
    induction leads with
    | refl => exact entered
    | tail _ flows ih => exact onward _ _ ih flows
  constructor
  · intro member
    have other := ((extension.member b (within b member) (by simp)).mp member).1
    refine ⟨other, (extension.new b (within b member) (by simp)).1.2, ?_⟩
    -- ways ahead lower the number, so they end at a block that goes back
    induction rank : v.number b using Nat.strong_induction_on generalizing b with
    | _ _ ih =>
      obtain ⟨⟨atBlock, _⟩, bounded⟩ := extension.new b (within b member) (by simp)
      rcases ((extension.member b (within b member) (by simp)).mp member).2 with closes | ⟨t, flows, inside⟩
      · exact ⟨b, .refl, closes⟩
      · have lower := (oriented.flows atBlock flows).2
        have inside : t ∈ (v.loopBody head).members := inside.resolve_left fun same => by
          rw [same] at lower
          omega
        have other := ((extension.member t (within t inside) (by simp)).mp inside).1
        obtain ⟨c, leads, closes⟩ := ih _ (rank ▸ lower) inside other rfl
        exact ⟨c, .head flows leads, closes⟩
  · rintro ⟨other, leads, c, returns, closes⟩
    have seen := reaches b leads
    -- from the block that goes back, along the way to it
    induction returns using Relation.ReflTransGen.head_induction_on with
    | refl => exact (extension.member c seen (by simp)).mpr ⟨other, .inl closes⟩
    | @head y t flows _ ih =>
      refine (extension.member y seen (by simp)).mpr ⟨other, .inr ⟨t, flows, ?_⟩⟩
      by_cases same : t = head
      · exact .inl same
      · exact .inr (ih same (leads.tail flows) (onward y t seen flows))

theorem member_le (atHead : reached head) (member : b ∈ (v.loopBody head).members) : v.number b ≤ v.number head := by
  obtain ⟨extension, _⟩ := oriented.loopBody_extends atHead
  exact Nat.lt_succ_iff.mp (extension.new b (extension.within (by simp) member) (by simp)).2

/-- The last block of a loop is one that turns back, and none of those stands behind it. There is no last block only if no
block turns back. -/
theorem loopBody_last (atHead : reached head) :
    (∀ l, (v.loopBody head).last = some l →
      (l = head ∨ l ∈ (v.loopBody head).members) ∧ v.Turns head (v.loopBody head).members l) ∧
    ∀ b, b = head ∨ b ∈ (v.loopBody head).members → v.Closes head b →
      (∀ t, v.Flows b t → t ∉ (v.loopBody head).members) → v.Covers (v.block b).place (v.loopBody head).last := by
  obtain ⟨extension, entered⟩ := oriented.loopBody_extends atHead
  constructor
  · intro l last
    obtain ⟨seen, new, turns⟩ := (extension.last l last).resolve_left (by simp)
    refine ⟨or_iff_not_imp_left.mpr fun other => ?_, turns⟩
    exact (oriented.mem_loopBody atHead).mpr ⟨other, (extension.new l seen new).1.2, l, .refl, turns.1⟩
  · intro b inside closes outside
    have seen : b ∈ (v.loopBody head).seen := by
      rcases inside with rfl | member
      · exact entered
      · exact extension.within (by simp) member
    refine extension.covers b seen (by simp) ⟨closes, fun t flows => ⟨?_, outside t flows⟩⟩
    rintro rfl
    obtain ⟨⟨atBlock, _⟩, bounded⟩ := extension.new b seen (by simp)
    have lower := (oriented.flows atBlock flows).2
    omega

theorem last_le (atHead : reached head) {l : Fin n} (last : (v.loopBody head).last = some l) :
    v.number l ≤ v.number head := by
  rcases ((oriented.loopBody_last atHead).1 l last).1 with rfl | member
  · exact Nat.le_refl _
  · exact oriented.member_le atHead member

end Oriented

end Unstack.View
