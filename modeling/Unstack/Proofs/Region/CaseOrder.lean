import Mathlib.Data.List.InsertIdx
import Mathlib.Data.List.Perm.Basic
import Unstack.Proofs.Outcome
import Unstack.Region.Switch

namespace Unstack

variable {n : Nat}

theorem takeOut_eq {α : Type} {items : List α} {i : Nat} (inside : i < items.length) :
    takeOut items i = .ok (items[i], items.eraseIdx i) := by
  simp only [takeOut, List.getElem?_eq_getElem inside]

theorem putIn_eq {α : Type} {items : List α} {i : Nat} (fits : i ≤ items.length) (item : α) :
    putIn items i item = .ok (items.insertIdx i item) := if_pos fits

namespace CaseOrder

variable {c : CaseOrder n} {i : Nat}

theorem defer_perm (inside : i < c.order.length) : ∃ c', c.defer i = .ok c' ∧ c'.order.Perm c.order := by
  simp only [defer, takeOut_eq inside, ok_bind]
  refine ⟨_, rfl, ?_⟩
  exact List.perm_append_singleton _ _ |>.trans (List.getElem_cons_eraseIdx_perm inside)

/-- An earlier position leaves room for a case behind it once the case is taken out. -/
theorem moveBehind_perm (position : Nat) (inside : i < c.order.length) :
    ∃ c', c.moveBehind position i = .ok c' ∧ c'.order.Perm c.order := by
  simp only [moveBehind]
  by_cases early : position + 1 < i
  · have length : (c.order.eraseIdx i).length = c.order.length - 1 := List.length_eraseIdx_of_lt inside
    have fits : position + 1 ≤ (c.order.eraseIdx i).length := by omega
    simp only [if_pos early, takeOut_eq inside, ok_bind, putIn_eq fits]
    refine ⟨_, rfl, ?_⟩
    exact (List.perm_insertIdx _ _ fits).trans (List.getElem_cons_eraseIdx_perm inside)
  · exact ⟨c, by rw [if_neg early]; rfl, List.Perm.refl _⟩

theorem skip_order (c : CaseOrder n) (arc : Arc n) : (c.skip arc).order = c.order := by
  unfold skip
  split <;> rfl

theorem fallInto_perm (v : View n) (head : Fin n) (position : Nat) (arc : Arc n) (inside : i < c.order.length) :
    ∃ c', fallInto v head c position i arc = .ok c' ∧ c'.order.Perm c.order := by
  obtain ⟨moved, run, perm⟩ := moveBehind_perm position inside
  simp only [fallInto, run, ok_bind]
  refine ⟨_, rfl, ?_⟩
  split
  · rw [skip_order]
    exact perm
  · exact perm

/-- Whatever is moved, no case gets lost and every position that is used exists. -/
theorem settle_perm (v : View n) (head : Fin n) {size : Nat} (fuel deferrals : Nat) (long : c.order.length = size) :
    ∃ c', settle v head size fuel deferrals i c = .ok c' ∧ c'.order.Perm c.order := by
  induction fuel generalizing deferrals i c with
  | zero => exact ⟨c, rfl, List.Perm.refl _⟩
  | succ fuel ih =>
    cases deferrals with
    | zero => exact ⟨c, rfl, List.Perm.refl _⟩
    | succ deferrals =>
      rw [settle]
      by_cases behind : size ≤ i
      · exact ⟨c, by rw [if_pos behind]; rfl, List.Perm.refl _⟩
      · have inside : i < c.order.length := by omega
        have here : c.caseAt i = .ok c.order[i] := by simp only [caseAt, List.getElem?_eq_getElem inside]
        -- The rest is settled from any order of the same cases.
        have onward (deferrals' i' : Nat) (c' : CaseOrder n) (perm : c'.order.Perm c.order) :
            ∃ last, settle v head size fuel deferrals' i' c' = .ok last ∧ last.order.Perm c.order := by
          obtain ⟨last, run, perm'⟩ := ih (i := i') deferrals' (perm.length_eq.trans long)
          exact ⟨last, run, perm'.trans perm⟩
        rw [if_neg behind, here, ok_bind]
        split
        · exact onward _ _ _ (.of_eq (skip_order c _))
        · split
          · exact onward _ _ _ (.of_eq (skip_order c _))
          · obtain ⟨deferred, run, perm⟩ := defer_perm inside
            rw [run, ok_bind]
            exact onward _ _ _ perm
        · exact onward _ _ _ (List.Perm.refl _)
        · rename_i position _
          obtain ⟨entered, run, perm⟩ := fallInto_perm v head position c.order[i] inside
          rw [run, ok_bind]
          exact onward _ _ _ perm

end CaseOrder

theorem View.switchRegion_total (v : View n) (head : Fin n) : ∃ region, v.switchRegion head = .ok region := by
  obtain ⟨c, run, _⟩ := CaseOrder.settle_perm (i := 0) v head
    (((v.outs head).filter fun arc => arc.kind.isSwitchCase).length + CaseOrder.maxDeferrals) CaseOrder.maxDeferrals
    (c := ⟨(v.outs head).filter fun arc => arc.kind.isSwitchCase, [], [], none, []⟩) rfl
  exact ⟨v.switchOf head c, by simp only [switchRegion, caseOrder, run, ok_bind]; rfl⟩

end Unstack
