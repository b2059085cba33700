import Mathlib.Data.List.Chain
import Unstack.Proofs.Graph.DepthFirst

namespace Unstack

variable {α β : Type} {step : α → α → Prop} {start a b c : α}

/-- The list is a path from the start to `b`, both included. -/
def PathTo (step : α → α → Prop) (start b : α) (path : List α) : Prop :=
  path.head? = some start ∧ path.getLast? = some b ∧ path.IsChain step

/-- Every path from the start to `b` goes through `a`. -/
def Dominates (step : α → α → Prop) (start a b : α) : Prop := ∀ path, PathTo step start b path → a ∈ path

/-- The start reaches `b` around `a`. -/
def Avoids (step : α → α → Prop) (start a b : α) : Prop :=
  start ≠ a ∧ Relation.ReflTransGen (fun x y => step x y ∧ y ≠ a) start b

theorem Avoids.tail (avoids : Avoids step start a b) (one : step b c) (other : c ≠ a) : Avoids step start a c :=
  ⟨avoids.1, avoids.2.tail ⟨one, other⟩⟩

theorem Avoids.path (avoids : Avoids step start a b) : ∃ path, PathTo step start b path ∧ a ∉ path := by
  obtain ⟨first, reaches⟩ := avoids
  induction reaches with
  | refl => exact ⟨[start], ⟨rfl, rfl, .singleton _⟩, by simpa using first.symm⟩
  | @tail b c _ one ih =>
    obtain ⟨path, ⟨head, last, chain⟩, outside⟩ := ih
    refine ⟨path ++ [c], ⟨by simp [head], by simp, ?_⟩, by simp [outside, one.2.symm]⟩
    refine List.IsChain.append chain (.singleton _) fun x atEnd y atStart => ?_
    cases last.some_unique atEnd
    cases atStart
    exact one.1

theorem PathTo.avoids {path : List α} (along : PathTo step start b path) (outside : a ∉ path) :
    Avoids step start a b := by
  obtain ⟨head, last, chain⟩ := along
  induction path generalizing start with
  | nil => cases head
  | cons x rest ih =>
    cases head
    rw [List.mem_cons, not_or] at outside
    refine ⟨Ne.symm outside.1, ?_⟩
    cases rest with
    | nil =>
      cases last
      exact .refl
    | cons y rest =>
      obtain ⟨one, chain⟩ := List.isChain_cons_cons.mp chain
      have onward := ih outside.2 rfl (by simpa using last) chain
      exact .head ⟨one, onward.1⟩ onward.2

theorem dominates_iff : Dominates step start a b ↔ ¬ Avoids step start a b := by
  constructor
  · intro dominates avoids
    obtain ⟨path, along, outside⟩ := avoids.path
    exact outside (dominates path along)
  · intro guarded path along
    by_contra outside
    exact guarded (along.avoids outside)

namespace Dominates

theorem refl (b : α) : Dominates step start b b := fun _ along => List.mem_of_getLast? along.2.1

theorem eq_start (dominates : Dominates step start a start) : a = start := by
  by_contra other
  exact dominates_iff.mp dominates ⟨Ne.symm other, .refl⟩

/-- Another block that dominates this one dominates each way into it. -/
theorem pred (dominates : Dominates step start a b) (one : step c b) (other : a ≠ b) : Dominates step start a c := by
  rw [dominates_iff] at dominates ⊢
  exact fun avoids => dominates (avoids.tail one other.symm)

end Dominates

theorem Trail.avoids {path : List α} (trail : Trail step start b path) (outside : a ∉ path) :
    Avoids step start a b := by
  induction trail with
  | start => exact ⟨fun same => outside (List.mem_singleton.mpr same.symm), .refl⟩
  | step _ one _ ih =>
    rw [List.mem_cons, not_or] at outside
    exact (ih outside.2).tail one (Ne.symm outside.1)

/-- A path that repeats nothing goes through all that dominates its end. -/
theorem Trail.mem_of_dominates {path : List α} (trail : Trail step start b path) (dominates : Dominates step start a b) :
    a ∈ path := by
  by_contra outside
  exact dominates_iff.mp dominates (trail.avoids outside)

/-- Dominance does not depend on how blocks are named. -/
theorem dominates_place {step' : β → β → Prop} {place : α → β} (injective : Function.Injective place)
    (steps : ∀ x y, step x y ↔ step' (place x) (place y)) (closed : ∀ x y, step' (place x) y → ∃ z, place z = y) :
    Dominates step start a b ↔ Dominates step' (place start) (place a) (place b) := by
  rw [dominates_iff, dominates_iff, not_iff_not]
  constructor
  · intro avoids
    refine ⟨injective.ne avoids.1, avoids.2.lift place fun x y one => ?_⟩
    exact ⟨(steps x y).mp one.1, injective.ne one.2⟩
  · intro avoids
    have each (y : β) (reaches : Relation.ReflTransGen (fun x y => step' x y ∧ y ≠ place a) (place start) y) :
        ∃ x, place x = y ∧ Relation.ReflTransGen (fun x y => step x y ∧ y ≠ a) start x := by
      induction reaches with
      | refl => exact ⟨start, rfl, .refl⟩
      | tail _ one ih =>
        obtain ⟨x, rfl, reaches⟩ := ih
        obtain ⟨z, rfl⟩ := closed x _ one.1
        exact ⟨z, rfl, reaches.tail ⟨(steps x z).mpr one.1, fun same => one.2 (congrArg place same)⟩⟩
    obtain ⟨x, same, reaches⟩ := each _ avoids.2
    cases injective same
    exact ⟨fun same => avoids.1 (congrArg place same), reaches⟩

namespace Graph

def Dominates (g : Graph) (a b : BlockId) : Prop := Unstack.Dominates g.Steps g.start a b

/-- Of the blocks other than `b` that dominate `b` the nearest: all the others dominate it. -/
def IsImmediate (g : Graph) (d b : BlockId) : Prop :=
  (g.Dominates d b ∧ d ≠ b) ∧ ∀ a, g.Dominates a b → a ≠ b → g.Dominates a d

end Graph

end Unstack
