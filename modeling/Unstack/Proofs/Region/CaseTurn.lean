import Unstack.Proofs.Graph.Resolved
import Unstack.Proofs.Region.SingleEntry

namespace Unstack

variable {n : Nat}

namespace CaseOrder

/-- The blocks that were found for a case, and the cases that control falls into by then. -/
def record (c : CaseOrder n) (arc : Arc n) (found : Branch n) (entered : List EdgeId) : CaseOrder n :=
  { c with members := setMembers arc.edge found.members c.members, follows := found.follows, entered }

/-- Where the loop over the cases stands: the position it has come to, how many cases it may still put at the end, and
the cases as they are ordered then. -/
structure Stage (n : Nat) where
  position : Nat
  deferrals : Nat
  cases : CaseOrder n

/-- Nothing is left to settle, or too many cases were put at the end. -/
def Stage.Ended (s : Stage n) : Prop := s.cases.order.length ≤ s.position ∨ s.deferrals = 0

def Stage.first (v : View n) (head : Fin n) : Stage n := ⟨0, maxDeferrals, ⟨v.cases head, [], [], none, []⟩⟩

/-- One turn of the loop, where nothing bounds the search for the blocks of a case. -/
inductive Turn (v : View n) (head : Fin n) : Stage n → Stage n → Prop where
  | skip {i d : Nat} {c : CaseOrder n} {arc : Arc n} : c.order[i]? = some arc →
    (entranceOf v c i arc = .joins ∨ entranceOf v c i arc = .outside ∧ arc.kind.isFallback = true) →
    Turn v head ⟨i, d + 1, c⟩ ⟨i + 1, d + 1, c.skip arc⟩
  | defer {i d : Nat} {c c' : CaseOrder n} {arc : Arc n} : c.order[i]? = some arc → entranceOf v c i arc = .outside →
    arc.kind.isFallback = false → c.defer i = .ok c' → Turn v head ⟨i, d + 1, c⟩ ⟨i, d, c'⟩
  | search {i d : Nat} {c : CaseOrder n} {arc : Arc n} {found : Branch n} : c.order[i]? = some arc →
    entranceOf v c i arc = .fallsFrom none → v.Runs head arc.target ⟨c.membersOf arc.edge, c.follows⟩ found →
    Turn v head ⟨i, d + 1, c⟩ ⟨i + 1, d + 1, c.record arc found c.entered⟩
  | past {i d position : Nat} {c c' : CaseOrder n} {arc : Arc n} : c.order[i]? = some arc →
    entranceOf v c i arc = .fallsFrom (some position) → c.moveBehind position i = .ok c' → arc.kind.isFallback = true →
    c'.follows = [arc.target] → Turn v head ⟨i, d + 1, c⟩ ⟨i + 1, d + 1, c'.skip arc⟩
  | enter {i d position : Nat} {c c' : CaseOrder n} {arc : Arc n} {found : Branch n} : c.order[i]? = some arc →
    entranceOf v c i arc = .fallsFrom (some position) → c.moveBehind position i = .ok c' →
    ¬ (arc.kind.isFallback = true ∧ c'.follows = [arc.target]) →
    v.Runs head arc.target ⟨c'.membersOf arc.edge ++ [arc.target], c'.follows.filter (· != arc.target)⟩ found →
    Turn v head ⟨i, d + 1, c⟩ ⟨i + 1, d + 1, c'.record arc found (arc.edge :: c'.entered)⟩

abbrev Turns (v : View n) (head : Fin n) : Stage n → Stage n → Prop := Relation.ReflTransGen (Turn v head)

variable {v : View n} {head : Fin n} {c : CaseOrder n} {i : Nat} {s s' : Stage n}

theorem Turn.perm (turn : Turn v head s s') : s'.cases.order.Perm s.cases.order := by
  cases turn with
  | skip => rw [skip_order]
  | defer here _ _ deferred =>
    obtain ⟨_, run, perm⟩ := defer_perm here.lt_length
    cases deferred.ok_unique run
    exact perm
  | search => exact .refl _
  | @past i d position c c' arc here _ moved =>
    obtain ⟨_, run, perm⟩ := moveBehind_perm position here.lt_length
    cases moved.ok_unique run
    rw [skip_order]
    exact perm
  | @enter i d position c c' arc found here _ moved =>
    obtain ⟨_, run, perm⟩ := moveBehind_perm position here.lt_length
    cases moved.ok_unique run
    exact perm

/-- How many turns may still come. -/
def Stage.left (s : Stage n) : Nat := s.cases.order.length - s.position + s.deferrals

/-- Each turn has less to do, so the turns end. -/
theorem Turn.left_lt (turn : Turn v head s s') : s'.left < s.left := by
  have length := turn.perm.length_eq
  unfold Stage.left
  rw [length]
  cases turn with
  | defer => exact Nat.lt_succ_self _
  | skip here | search here | past here | enter here =>
    have inside := here.lt_length
    simp only
    omega

/-- No run of the loop goes on for ever. -/
theorem turn_wellFounded (v : View n) (head : Fin n) : WellFounded fun next now => Turn v head now next :=
  Subrelation.wf Turn.left_lt (measure Stage.left).wf

theorem caseAt_eq_ok {arc : Arc n} (run : c.caseAt i = .ok arc) : c.order[i]? = some arc := by
  unfold caseAt at run
  split at run
  · cases run
    assumption
  · cases run

/-- The loop with enough fuel makes one turn after the other to its end. -/
theorem settle_turns {size fuel d : Nat} (long : c.order.length = size) (enough : size - i + d ≤ fuel)
    {last : CaseOrder n} (run : settle v head size fuel d i c = .ok last) :
    ∃ s : Stage n, Turns v head ⟨i, d, c⟩ s ∧ s.Ended ∧ s.cases = last := by
  induction fuel generalizing d i c with
  | zero =>
    cases run
    exact ⟨_, .refl, .inr (by simp only; omega), rfl⟩
  | succ fuel ih =>
    cases d with
    | zero =>
      cases run
      exact ⟨_, .refl, .inr rfl, rfl⟩
    | succ d =>
      rw [settle] at run
      split at run
      · rename_i behind
        cases run
        exact ⟨_, .refl, .inl (long ▸ behind), rfl⟩
      · -- a turn leads to a stage from which the rest is settled
        have onward {s : Stage n} (turn : Turn v head ⟨i, d + 1, c⟩ s)
            (rest : settle v head size fuel s.deferrals s.position s.cases = .ok last) :
            ∃ s : Stage n, Turns v head ⟨i, d + 1, c⟩ s ∧ s.Ended ∧ s.cases = last := by
          have long' : s.cases.order.length = size := turn.perm.length_eq.trans long
          have less := turn.left_lt
          simp only [Stage.left, long, long'] at less
          obtain ⟨s', turns, ended, same⟩ := ih long' (by omega) rest
          exact ⟨s', .head turn turns, ended, same⟩
        obtain ⟨arc, here, run⟩ := bind_eq_ok.mp run
        have here := caseAt_eq_ok here
        split at run
        · rename_i joins
          exact onward (.skip here (.inl joins)) run
        · rename_i outside
          split at run
          · rename_i fallback
            exact onward (.skip here (.inr ⟨outside, fallback⟩)) run
          · rename_i labelled
            obtain ⟨deferred, later, run⟩ := bind_eq_ok.mp run
            exact onward (.defer here outside (by simpa using labelled) later) run
        · rename_i falls
          exact onward (.search here falls (v.growBranch_runs head _ _)) run
        · rename_i position falls
          obtain ⟨entered, moves, run⟩ := bind_eq_ok.mp run
          obtain ⟨moved, behind, made⟩ := bind_eq_ok.mp moves
          cases made
          split at run
          · rename_i only
            simp only [Bool.and_eq_true, beq_iff_eq] at only
            exact onward (.past here falls behind only.1 only.2) run
          · rename_i other
            simp only [Bool.and_eq_true, beq_iff_eq] at other
            exact onward (.enter here falls behind other (v.growBranch_runs head _ _)) run

theorem Turns.keeps {P : Stage n → Prop} (step : ∀ s s', P s → Turn v head s s' → P s') (turns : Turns v head s s')
    (holds : P s) : P s' := by
  induction turns with
  | refl => exact holds
  | tail _ turn ih => exact step _ _ ih turn

theorem Turns.perm (turns : Turns v head s s') : s'.cases.order.Perm s.cases.order :=
  turns.keeps (P := fun t => t.cases.order.Perm s.cases.order) (fun _ _ kept turn => turn.perm.trans kept) (.refl _)

end CaseOrder

/-- The cases of a switch are put in order by turns of the loop, and the loop ends. -/
theorem View.caseOrder_turns (v : View n) (head : Fin n) :
    ∃ s : CaseOrder.Stage n, CaseOrder.Turns v head (.first v head) s ∧ s.Ended ∧ v.caseOrder head = .ok s.cases := by
  obtain ⟨c, run, _⟩ := CaseOrder.settle_perm (i := 0) (c := ⟨v.cases head, [], [], none, []⟩) v head
    ((v.cases head).length + CaseOrder.maxDeferrals) CaseOrder.maxDeferrals rfl
  obtain ⟨s, turns, ended, rfl⟩ := CaseOrder.settle_turns rfl (by simp) run
  exact ⟨s, turns, ended, run⟩

namespace CaseOrder

theorem cases_eq_map (c : CaseOrder n) :
    c.cases.map (fun listed => (listed.edge, listed.labels)) = c.order.map fun arc => (arc.edge, arc.kind.labels?.getD []) := by
  rw [cases, List.map_map]
  conv_rhs => rw [← List.zipIdx_map_fst 0 c.order, List.map_map]
  rfl

end CaseOrder

namespace Graph

variable {g : Graph}

/-- The labels of an edge that is a case of a switch. -/
def case? (g : Graph) (e : EdgeId) : Option (EdgeId × List CaseLabel) :=
  g.edges[e]?.bind fun edge => edge.kind.labels?.map fun labels => (e, labels)

/-- The cases that the view shows are the edges of the head that are cases, with their labels. -/
theorem Resolves.cases {v : View g.size} (resolves : g.Resolves v) (head : Fin g.size) :
    ((v.cases head).map fun arc => (arc.edge, arc.kind.labels?.getD [])) = (g.outsOf head).filterMap g.case? := by
  have names (arc : Arc g.size) (member : arc ∈ v.outs head) := resolves.out_names member
  rw [← resolves.outs head, List.filterMap_map, View.cases]
  generalize v.outs head = arcs at names ⊢
  induction arcs with
  | nil => rfl
  | cons arc rest ih =>
    have ih := ih fun arc member => names arc (.tail _ member)
    obtain ⟨edge, found, _, _, kind, _⟩ := names arc (.head _)
    have case : g.case? arc.edge = arc.kind.labels?.map fun labels => (arc.edge, labels) := by
      rw [case?, found, ← kind]
      rfl
    cases labelled : arc.kind.labels? with
    | none => simpa [case, EdgeKind.isSwitchCase, labelled] using ih
    | some labels => simpa [case, EdgeKind.isSwitchCase, labelled] using ih

theorem map_case?_sublist (g : Graph) (names : List EdgeId) : ((names.filterMap g.case?).map Prod.fst).Sublist names := by
  induction names with
  | nil => exact .slnil
  | cons e rest ih =>
    cases case : g.case? e with
    | none =>
      rw [List.filterMap_cons_none case]
      exact ih.cons e
    | some listed =>
      have same : listed.1 = e := by
        simp only [case?, Option.bind_eq_some_iff, Option.map_eq_some_iff] at case
        obtain ⟨_, _, _, _, rfl⟩ := case
        rfl
      rw [List.filterMap_cons_some case, List.map_cons, same]
      exact ih.cons_cons e

/-- The cases of the region are the edges of its head that are cases, each with its labels and as often as the head lists
it. -/
def KeepsCases (g : Graph) (head : BlockId) (r : Region) : Prop :=
  ∃ kind cases, r.kind = .switch kind cases ∧
    (cases.map fun listed => (listed.edge, listed.labels)).Perm ((g.outsOf head).filterMap g.case?) ∧
    ((g.outsOf head).Nodup → (cases.map SwitchCase.edge).Nodup)

theorem Resolves.keepsCases {v : View g.size} (resolves : g.Resolves v) {head : Fin g.size} {s : CaseOrder.Stage g.size}
    (turns : CaseOrder.Turns v head (.first v head) s) : g.KeepsCases head (v.switchOf head s.cases) := by
  have listed : (s.cases.cases.map fun listed => (listed.edge, listed.labels)).Perm ((g.outsOf head).filterMap g.case?) := by
    rw [CaseOrder.cases_eq_map, ← resolves.cases head]
    exact turns.perm.map _
  refine ⟨_, s.cases.cases, rfl, listed, fun once => ?_⟩
  have edges := (listed.map Prod.fst).nodup_iff.mpr (once.sublist (g.map_case?_sublist (g.outsOf head)))
  rwa [List.map_map] at edges

/-- The loop over the cases of a switch ends, also with the search for their blocks left unbounded, and no case gets lost:
whatever was moved or put at the end, the cases of the region are those of the head. -/
theorem switchRegion_keeps_cases {v : View g.size} (viewed : g.view = .ok v) (head : Fin g.size) :
    (WellFounded fun next now => CaseOrder.Turn v head now next) ∧
    (∀ a b, v.flow.hasPred b a = true ↔ Relation.TransGen v.flow.Enters a b) ∧
    ∃ s, CaseOrder.Turns v head (.first v head) s ∧ s.Ended ∧ v.switchRegion head = .ok (v.switchOf head s.cases) ∧
      g.KeepsCases head (v.switchOf head s.cases) := by
  refine ⟨CaseOrder.turn_wellFounded v head, fun a b => v.flow.hasPred_iff b a, ?_⟩
  obtain ⟨s, turns, ended, run⟩ := v.caseOrder_turns head
  refine ⟨s, turns, ended, ?_, (resolves_of_view viewed).keepsCases turns⟩
  rw [View.switchRegion, run]
  rfl

end Graph

namespace Edit

/-- The graph that some edits draw passes a test once it is numbered. -/
theorem numbered_of_any {edits : List Edit} {test : Graph → Bool}
    (fit : AllFit (Graph.empty (MethodInfo.plain "drawn" 0 0) []) edits)
    (passes : (run (Graph.empty (MethodInfo.plain "drawn" 0 0) []) edits).toOption.any fun before =>
      before.renumber.toOption.any test) :
    ∃ before g : Graph, before.Wired ∧ before.renumber = .ok g ∧ test g = true := by
  obtain ⟨before, drawn, wired⟩ := fit.wired (Graph.empty_wired _ _)
  rw [drawn] at passes
  obtain ⟨g, numbered, fits⟩ := of_any_toOption (show before.renumber.toOption.any test from passes)
  exact ⟨before, g, wired, numbered, fits⟩

/-- A switch whose second case goes on with the first one, which is put at the end and then moved behind the second. -/
def swapped : List Edit :=
  [newBlock 0, newBlock 1, newBlock 2, newBlock 3, addSwitchCase 0 1 [.int 1], addSwitchCase 0 2 [.int 2],
    addSwitchCase 0 3 [.fallback], setSucc 2 1]

end Edit

namespace Graph

theorem switchRegion_keeps_cases_swapped : ∃ (g : Graph) (v : View g.size) (head : Fin g.size) (r : Region),
    g.view = .ok v ∧ v.switchRegion head = .ok r ∧ g.KeepsCases head r ∧
    r.kind = .switch .withDefault [⟨1, [.int 2], true⟩, ⟨0, [.int 1], false⟩, ⟨2, [.fallback], false⟩] := by
  obtain ⟨_, g, _, _, shaped⟩ := @Edit.numbered_of_any Edit.swapped
    (fun g => g.view.toOption.any fun v => (List.finRange g.size).any fun head =>
      (v.switchRegion head).toOption.any fun r => decide (r.kind = .switch .withDefault
        [⟨1, [.int 2], true⟩, ⟨0, [.int 1], false⟩, ⟨2, [.fallback], false⟩])) (by decide +kernel) (by decide +kernel)
  obtain ⟨v, viewed, shaped⟩ := of_any_toOption shaped
  obtain ⟨head, _, shaped⟩ := List.any_eq_true.mp shaped
  obtain ⟨_, _, s, _, _, run, kept⟩ := switchRegion_keeps_cases viewed head
  rw [run] at shaped
  exact ⟨g, v, head, _, viewed, run, kept, of_decide_eq_true shaped⟩

end Graph

end Unstack
