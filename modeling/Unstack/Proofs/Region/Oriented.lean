import Unstack.Proofs.Dominator.Immediate
import Unstack.Proofs.Graph.Cycle
import Unstack.Region.View

namespace Unstack

theorem eq_of_short {α : Type} {items : List α} (short : items.length ≤ 1) {a b : α} (first : a ∈ items) (second : b ∈ items) :
    a = b := by
  obtain ⟨only, rfl⟩ := List.length_eq_one_iff.mp (Nat.le_antisymm short (List.length_pos_of_mem first))
  rw [List.mem_singleton.mp first, List.mem_singleton.mp second]

namespace View

variable {n : Nat} {v : View n} {b : Fin n}

def number (v : View n) (b : Fin n) : Nat := (v.block b).postorder

/-- Numbers and marks of back edges are those of a search in depth that began at `start` and entered the blocks that are
`reached`. -/
structure Oriented (v : View n) (start : Fin n) (reached : Fin n → Prop) : Prop where
  source {b : Fin n} {arc : Arc n} : arc ∈ v.outs b → arc.source = b
  target {b : Fin n} {arc : Arc n} : arc ∈ v.ins b → arc.target = b
  enters {b : Fin n} {arc : Arc n} : arc ∈ v.outs b → arc ∈ v.ins arc.target
  leaves {b : Fin n} {arc : Arc n} : arc ∈ v.ins b → arc ∈ v.outs arc.source
  same {b : Fin n} {arc arc' : Arc n} : arc ∈ v.ins b → arc' ∈ v.ins b → arc.edge = arc'.edge → arc = arc'
  once (b : Fin n) : ((v.outs b).map Arc.edge).Nodup
  onward {b : Fin n} {arc : Arc n} : reached b → arc ∈ v.outs b → reached arc.target
  forward {b : Fin n} {arc : Arc n} : reached b → arc ∈ v.outs b → arc.back = false → v.number arc.target < v.number b
  back {b : Fin n} {arc : Arc n} : arc ∈ v.outs b → arc.back = true → v.number b ≤ v.number arc.target
  parent {b : Fin n} : reached b → b = start ∨ ∃ arc ∈ v.ins b, arc.back = false ∧ reached arc.source

theorem mem_forwardSuccs {c : Fin n} :
    c ∈ v.flow.forwardSuccs b ↔ ∃ arc ∈ v.outs b, arc.back = false ∧ arc.target = c := by
  simp [Flow.forwardSuccs, outs, and_assoc]

theorem mem_of_targetOf {kind : EdgeKind} {c : Fin n} (found : v.targetOf kind b = some c) :
    ∃ arc ∈ v.outs b, arc.kind = kind ∧ arc.target = c := by
  obtain ⟨arc, chosen, rfl⟩ := Option.map_eq_some_iff.mp found
  exact ⟨arc, List.mem_of_find?_eq_some chosen, by simpa using List.find?_some chosen, rfl⟩

theorem mem_of_earliest {blocks : List (Fin n)} (found : v.earliest blocks = some b) : b ∈ blocks := by
  -- the best block so far is always one of those that were looked at
  have all (rest : List (Fin n)) (best : Option (Fin n))
      (found : rest.foldl (fun best b => if v.isBeforeOr b best then some b else best) best = some b) :
      best = some b ∨ b ∈ rest := by
    induction rest generalizing best with
    | nil => exact .inl found
    | cons next rest ih =>
      rw [List.foldl_cons] at found
      rcases ih _ found with same | later
      · split at same
        · cases same
          exact .inr (.head _)
        · exact .inl same
      · exact .inr (.tail _ later)
  exact (all blocks none found).resolve_left (by simp)

end View

namespace Graph

variable {g : Graph} {arc : Arc g.size}

/-- An edge is shown by one arc. -/
theorem Shows.unique {arc' : Arc g.size} (shows : g.Shows arc) (shows' : g.Shows arc') (same : arc.edge = arc'.edge) :
    arc = arc' := by
  obtain ⟨edge, found, _, source, target, kind, back⟩ := shows
  obtain ⟨edge', found', _, source', target', kind', back'⟩ := shows'
  rw [same] at found
  cases found.some_unique found'
  cases arc
  cases arc'
  simp only [Arc.mk.injEq]
  exact ⟨same, Fin.ext (source.symm.trans source'), Fin.ext (target.symm.trans target'), kind.symm.trans kind',
    back.symm.trans back'⟩

section Reflects

variable {f : Flow g.size} (reflects : g.Reflects f) (wired : g.Wired)

include reflects wired

theorem Reflects.out_source {b : Fin g.size} (member : arc ∈ f.outs.get b) : arc.source = b := by
  obtain ⟨edge, found, _, source, _⟩ := reflects.out_shows b arc member
  obtain ⟨edge', found', _, source', _⟩ := reflects.arc_joins wired member
  cases found.some_unique found'
  exact Fin.ext (source.symm.trans source')

theorem Reflects.in_target {b : Fin g.size} (member : arc ∈ f.ins.get b) : arc.target = b := by
  obtain ⟨edge, found, _, _, target, _⟩ := reflects.in_shows b arc member
  obtain ⟨edge', found', _, _, target'⟩ := reflects.in_joins wired member
  cases found.some_unique found'
  exact Fin.ext (target.symm.trans target')

theorem Reflects.mem_ins_iff : arc ∈ f.ins.get arc.target ↔ arc ∈ f.outs.get arc.source := by
  constructor
  · intro member
    have leaving := (wired.mem_outs _ _).mpr ⟨_, reflects.in_joins wired member⟩
    rw [← reflects.outs arc.source] at leaving
    obtain ⟨arc', member', same⟩ := List.mem_map.mp leaving
    cases (reflects.out_shows _ arc' member').unique (reflects.in_shows _ arc member) same
    exact member'
  · intro member
    have entering := (wired.mem_ins _ _).mpr ⟨_, reflects.arc_joins wired member⟩
    rw [← reflects.ins arc.target] at entering
    obtain ⟨arc', member', same⟩ := List.mem_map.mp entering
    cases (reflects.in_shows _ arc' member').unique (reflects.out_shows _ arc member) same
    exact member'

end Reflects

/-- The view of a searched graph is oriented by the search. -/
theorem Searched.oriented (searched : g.Searched) (wired : g.Wired) {f : Flow g.size} (reflects : g.Reflects f) :
    (View.mk f g.blocks.toVector).Oriented ⟨g.start, searched.inside⟩ fun b => g.Reachable b := by
  have number (b : Fin g.size) (reached : g.Reachable b) : (View.mk f g.blocks.toVector).number b = g.rank b :=
    searched.number b _ (payload_found b) reached
  have onward {b : Fin g.size} {arc : Arc g.size} (reached : g.Reachable b) (member : arc ∈ f.outs.get b) :
      g.Reachable arc.target := reached.tail ⟨arc.edge, reflects.arc_joins wired member⟩
  refine
    { source := fun member => reflects.out_source wired member
      target := fun member => reflects.in_target wired member
      enters := ?_, leaves := ?_
      same := fun member member' => (reflects.in_shows _ _ member).unique (reflects.in_shows _ _ member')
      once := fun b => (reflects.outs b).symm ▸ wired.outs_nodup b
      onward := onward
      forward := ?_, back := ?_, parent := ?_ }
  · intro b arc member
    obtain rfl := reflects.out_source wired member
    exact (reflects.mem_ins_iff wired).mpr member
  · intro b arc member
    obtain rfl := reflects.in_target wired member
    exact (reflects.mem_ins_iff wired).mp member
  · intro b arc reached member ahead
    obtain ⟨edge, found, used, source, target, _, back⟩ := reflects.out_shows b arc member
    obtain rfl := reflects.out_source wired member
    rw [number _ reached, number _ (onward reached member)]
    rcases searched.forward arc.edge edge found used (source ▸ reached) with marked | lower
    · rw [back, ahead] at marked
      cases marked
    · rwa [source, target] at lower
  · intro b arc member marked
    obtain ⟨edge, found, _, source, target, _, back⟩ := reflects.out_shows b arc member
    obtain rfl := reflects.out_source wired member
    obtain ⟨_, higher, trail, along, _⟩ := searched.back arc.edge edge found (back.trans marked)
    have reached : g.Reachable arc.source := source ▸ along.reaches
    rw [number _ reached, number _ (onward reached member)]
    rwa [source, target] at higher
  · intro b reached
    rcases searched.parent b reached with first | ⟨c, ⟨e, joins⟩, reached', lower⟩
    · exact .inl (Fin.ext first)
    · have entering := (wired.mem_ins _ _).mpr ⟨_, joins⟩
      rw [← reflects.ins b] at entering
      obtain ⟨arc, member, rfl⟩ := List.mem_map.mp entering
      obtain rfl := reflects.in_target wired member
      obtain rfl := ((reflects.in_joins wired member).unique joins).1
      refine .inr ⟨arc, member, ?_, reached'⟩
      obtain ⟨edge, found, _, source, target, _, back⟩ := reflects.in_shows _ arc member
      -- the search came along this edge, so it does not go back
      rw [← back, Bool.eq_false_iff]
      intro marked
      have higher := (searched.back arc.edge edge found marked).2.1
      rw [source, target] at higher
      omega

end Graph

end Unstack
