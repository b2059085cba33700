import Mathlib.Data.Finset.Max
import Unstack.Proofs.Graph.Dominance

namespace Unstack

namespace Trail

variable {α : Type} {step : α → α → Prop} {start b : α} {path : List α}

theorem first (trail : Trail step start b path) : path.head? = some b := by
  cases trail <;> rfl

theorem chain (trail : Trail step start b path) : path.IsChain fun a b => step b a := by
  induction trail with
  | start => exact .singleton _
  | step before one _ ih =>
    refine List.isChain_cons.mpr ⟨fun a atHead => ?_, ih⟩
    cases before.first.some_unique atHead
    exact one

/-- What a trail has gone through was reached by an earlier part of it. -/
theorem part {v : α} {front behind : List α} (trail : Trail step start b (front ++ v :: behind)) :
    Trail step start v (v :: behind) := by
  generalize whole : front ++ v :: behind = path at trail
  induction trail generalizing front with
  | start =>
    cases front with
    | nil =>
      cases whole
      exact .start
    | cons x front => simp at whole
  | step before one fresh ih =>
    cases front with
    | nil =>
      cases whole
      exact .step before one fresh
    | cons x front =>
      cases whole
      exact ih rfl

end Trail

section Chain

variable {α : Type} {step : α → α → Prop}

theorem reaches_of_chain {x y : α} {l : List α} (chain : (x :: l).IsChain step) (member : y ∈ x :: l) :
    Relation.ReflTransGen step x y := by
  induction l generalizing x with
  | nil =>
    rw [List.mem_singleton.mp member]
  | cons z l ih =>
    obtain ⟨one, chain⟩ := List.isChain_cons_cons.mp chain
    rcases List.mem_cons.mp member with rfl | later
    · exact .refl
    · exact .head one (ih chain later)

theorem reaches_last_of_chain {x z : α} {l : List α} (chain : (l ++ [z]).IsChain step) (member : x ∈ l) :
    Relation.ReflTransGen step x z := by
  obtain ⟨front, behind, rfl⟩ := List.append_of_mem member
  rw [List.append_assoc, List.cons_append] at chain
  have later := (List.isChain_split.mp chain).2
  exact reaches_of_chain later (by simp)

end Chain

namespace Graph

variable {g : Graph}

/-- A closed way through the graph that repeats no block. -/
def Cycle (g : Graph) (cycle : List BlockId) : Prop :=
  cycle.Nodup ∧ ∃ first rest, cycle = first :: rest ∧ (first :: rest ++ [first]).IsChain g.Steps

/-- Some cycle that the start reaches has no block that dominates all of it. -/
def Irreducible (g : Graph) : Prop :=
  ∃ cycle, g.Cycle cycle ∧ (∀ b ∈ cycle, g.Reachable b) ∧ ¬ ∃ h ∈ cycle, ∀ b ∈ cycle, g.Dominates h b

/-- Within a cycle every block leads to every other. -/
theorem Cycle.connected {cycle : List BlockId} (closed : g.Cycle cycle) {b h : BlockId} (member : b ∈ cycle)
    (member' : h ∈ cycle) :
    Relation.ReflTransGen (fun x y => x ∈ cycle ∧ y ∈ cycle ∧ g.Steps x y) b h := by
  obtain ⟨_, first, rest, rfl, chain⟩ := closed
  have chain' : (first :: rest ++ [first]).IsChain
      fun x y => x ∈ first :: rest ∧ y ∈ first :: rest ∧ g.Steps x y := by
    refine chain.imp_of_mem_imp fun x y left right one => ⟨?_, ?_, one⟩
    · simpa [or_comm] using left
    · simpa [or_comm] using right
  have toFirst := reaches_last_of_chain chain' member
  have fromFirst := reaches_of_chain chain' (show h ∈ first :: (rest ++ [first]) by simpa [or_assoc] using Or.inl member')
  exact toFirst.trans fromFirst

/-- A back edge whose target does not dominate its source closes a cycle that nothing in it dominates: the
path of the search enters the cycle at the target only. -/
theorem Searched.irreducible_of_back (searched : g.Searched) {e : EdgeId} {edge : Edge} (found : g.edges[e]? = some edge)
    (back : edge.back = true) (undominated : ¬ g.Dominates edge.target edge.source) : g.Irreducible := by
  obtain ⟨used, _, path, trail, onTrail⟩ := searched.back e edge found back
  have closing : g.Steps edge.source edge.target := ⟨e, edge, found, used, rfl, rfl⟩
  obtain ⟨front, behind, rfl⟩ := List.append_of_mem onTrail
  have once := trail.nodup
  have part := trail.part
  have first : (front ++ [edge.target]).head? = some edge.source := by simpa [List.head?_append] using trail.first
  refine ⟨edge.target :: front.reverse, ⟨?_, edge.target, front.reverse, rfl, ?_⟩, ?_, ?_⟩
  · rw [← List.reverse_concat, List.nodup_reverse]
    have shorter : (front ++ [edge.target]).Sublist (front ++ edge.target :: behind) :=
      (List.singleton_sublist.mpr (.head _)).append_left front
    exact once.sublist shorter
  · have turned : edge.target :: front.reverse ++ [edge.target] =
        (edge.target :: (front ++ [edge.target])).reverse := by simp
    rw [turned, List.isChain_reverse]
    refine List.isChain_cons.mpr ⟨fun a atHead => ?_, (List.isChain_split.mp trail.chain).1⟩
    cases first.some_unique atHead
    exact closing
  · intro b member
    rw [← List.reverse_concat, List.mem_reverse] at member
    have onTrail : b ∈ front ++ edge.target :: behind := by
      rcases List.mem_append.mp member with early | last
      · exact List.mem_append_left _ early
      · exact List.mem_append_right _ (List.mem_singleton.mp last ▸ .head _)
    obtain ⟨_, _, split⟩ := List.append_of_mem onTrail
    rw [split] at trail
    exact trail.part.reaches
  · intro headed
    obtain ⟨h, member, dominates⟩ := headed
    have before := part.mem_of_dominates (dominates edge.target (.head _))
    have atTarget : h = edge.target := by
      rcases List.mem_cons.mp member with same | inside
      · exact same
      · have apart := (List.nodup_append.mp once).2.2 h (List.mem_reverse.mp inside) h before
        exact absurd rfl apart
    subst atTarget
    refine undominated (dominates edge.source ?_)
    rw [← List.reverse_concat, List.mem_reverse]
    exact List.mem_of_head? first

/-- If the target of every back edge dominates its source, the block of a cycle that is left last dominates
the cycle. -/
theorem Searched.back_of_irreducible (searched : g.Searched) (irreducible : g.Irreducible) :
    ∃ (e : EdgeId) (edge : Edge), g.edges[e]? = some edge ∧ edge.back = true ∧
      ¬ g.Dominates edge.target edge.source := by
  by_contra none
  have dominated (e : EdgeId) (edge : Edge) (found : g.edges[e]? = some edge) (back : edge.back = true) :
      g.Dominates edge.target edge.source := by
    by_contra undominated
    exact none ⟨e, edge, found, back, undominated⟩
  obtain ⟨cycle, closed, reachable, headless⟩ := irreducible
  obtain ⟨first, rest, shape, _⟩ := closed.2
  obtain ⟨h, member, top⟩ := Finset.exists_max_image cycle.toFinset g.rank ⟨first, by simp [shape]⟩
  rw [List.mem_toFinset] at member
  refine headless ⟨h, member, fun b inside => ?_⟩
  have leads := closed.connected inside member
  induction leads using Relation.ReflTransGen.head_induction_on with
  | refl => exact .refl h
  | @head b c one _ ih =>
    obtain ⟨insideB, insideC, step⟩ := one
    have below : g.Dominates h c := ih insideC
    by_cases here : c = h
    · subst here
      obtain ⟨e, edge, found, used, rfl, rfl⟩ := step
      rcases searched.forward e edge found used (reachable _ insideB) with back | lower
      · exact dominated e edge found back
      · have := top edge.source (List.mem_toFinset.mpr insideB)
        omega
    · exact below.pred step (Ne.symm here)

end Graph

end Unstack
