import Mathlib.Algebra.BigOperators.Fin
import Unstack.Proofs.Region.Oriented
import Unstack.Region.Sync

namespace Unstack.View

variable {n depth : Nat} {v : View n} {start head : Fin n} {reached : Fin n → Prop} {queue : List (Fin n × Nat)}
  {body : SyncBody n} {b : Fin n}

/-- The block can be entered with so many monitors held since the head. -/
inductive Holds (v : View n) (head : Fin n) : Fin n → Nat → Prop where
  | first {b : Fin n} : v.targetOf .sequence head = some b → Holds v head b 1
  | onward {b c : Fin n} {depth depth' : Nat} : Holds v head b depth →
    monitorDepth? depth (v.block b).stmts = some depth' → c ∈ v.flow.forwardSuccs b → Holds v head c depth'

/-- Control may come from a block that gives up the monitor of the head to the other one. -/
def Released (v : View n) (head b : Fin n) : Prop :=
  ∃ source depth, v.Holds head source depth ∧ monitorDepth? depth (v.block source).stmts = none ∧
    v.isHandler source = false ∧
    ∃ arc ∈ v.outs source, arc.kind.isHandler = false ∧ arc.back = false ∧ arc.target = b

/-- The block was entered already, or waits to be. -/
def Awaited (queue : List (Fin n × Nat)) (body : SyncBody n) (b : Fin n) : Prop := b ∈ body.seen ∨ b ∈ queue.map Prod.fst

/-- What the search decides about a block with the depth of its first arrival. -/
def Settled (v : View n) (queue : List (Fin n × Nat)) (body : SyncBody n) (b : Fin n) (depth : Nat) : Prop :=
  (b ∈ body.members ↔ ¬ (v.isHandler b = true ∧ monitorDepth? depth (v.block b).stmts = none)) ∧
    ∀ depth', monitorDepth? depth (v.block b).stmts = some depth' → ∀ c ∈ v.flow.forwardSuccs b, Awaited queue body c

/-- What holds whenever the search takes a block out of its queue. -/
structure Explored (v : View n) (head : Fin n) (queue : List (Fin n × Nat)) (body : SyncBody n) : Prop where
  first (b : Fin n) : v.targetOf .sequence head = some b → Awaited queue body b
  queued (entry : Fin n × Nat) : entry ∈ queue → v.Holds head entry.1 entry.2
  members (b : Fin n) : b ∈ body.members → b ∈ body.seen
  settled (b : Fin n) : b ∈ body.seen → ∃ depth, v.Holds head b depth ∧ v.Settled queue body b depth
  follow (f : Fin n) : body.follow = some f → v.Released head f

/-- A block of the search that is new is noted, perhaps as a member, and perhaps others are queued. -/
theorem Explored.note (explored : v.Explored head ((b, depth) :: queue) body) (fresh : b ∉ body.seen)
    {more : List (Fin n × Nat)} {body' : SyncBody n} (seen : body'.seen = b :: body.seen)
    (members : ∀ c, c ∈ body'.members ↔ c ∈ body.members ∨
      c = b ∧ ¬ (v.isHandler b = true ∧ monitorDepth? depth (v.block b).stmts = none))
    (holds : ∀ entry ∈ more, v.Holds head entry.1 entry.2)
    (covers : ∀ depth', monitorDepth? depth (v.block b).stmts = some depth' →
      ∀ c ∈ v.flow.forwardSuccs b, c ∈ more.map Prod.fst)
    (follow : ∀ f, body'.follow = some f → v.Released head f) : v.Explored head (queue ++ more) body' := by
  have awaited (c : Fin n) (old : Awaited ((b, depth) :: queue) body c) : Awaited (queue ++ more) body' c := by
    simp only [Awaited, seen, List.map_cons, List.map_append, List.mem_cons, List.mem_append] at old ⊢
    tauto
  refine ⟨fun c found => awaited c (explored.first c found), fun entry member => ?_, fun c member => ?_, fun c member => ?_,
    follow⟩
  · rcases List.mem_append.mp member with old | new
    · exact explored.queued entry (.tail _ old)
    · exact holds entry new
  · rw [seen]
    rcases (members c).mp member with old | ⟨rfl, _⟩
    · exact .tail _ (explored.members c old)
    · exact .head _
  · rw [seen] at member
    rcases List.mem_cons.mp member with rfl | old
    · refine ⟨depth, explored.queued (c, depth) (.head _), ?_, fun depth' counted d leads => ?_⟩
      · rw [members, or_iff_right fun member => fresh (explored.members c member), and_iff_right rfl]
      · rw [Awaited, List.map_append]
        exact .inr (List.mem_append_right _ (covers depth' counted d leads))
    · obtain ⟨depth', holds', inside, onward⟩ := explored.settled c old
      refine ⟨depth', holds', ?_, fun depth'' counted d leads => awaited d (onward depth'' counted d leads)⟩
      rw [members, ← inside, or_iff_left]
      rintro ⟨rfl, _⟩
      exact fresh old

theorem Explored.again (explored : v.Explored head ((b, depth) :: queue) body) (known : b ∈ body.seen) :
    v.Explored head queue body := by
  have awaited (c : Fin n) (old : Awaited ((b, depth) :: queue) body c) : Awaited queue body c := by
    simp only [Awaited, List.map_cons, List.mem_cons] at old ⊢
    rcases old with seen | rfl | waits
    · exact .inl seen
    · exact .inl known
    · exact .inr waits
  refine ⟨fun c found => awaited c (explored.first c found),
    fun entry member => explored.queued entry (.tail _ member), explored.members, fun c member => ?_,
    explored.follow⟩
  obtain ⟨depth', holds, inside, onward⟩ := explored.settled c member
  exact ⟨depth', holds, inside, fun depth'' counted d leads => awaited d (onward depth'' counted d leads)⟩

theorem leaveSync_seen (v : View n) (b : Fin n) (body : SyncBody n) : (v.leaveSync b body).seen = body.seen := by
  unfold leaveSync
  split <;> rfl

theorem mem_leaveSync {c : Fin n} :
    c ∈ (v.leaveSync b body).members ↔ c ∈ body.members ∨ c = b ∧ v.isHandler b = false := by
  unfold leaveSync
  split
  · rename_i handler
    simp [handler]
  · rename_i plain
    simp [plain]

theorem released_of_leaveSync {f : Fin n} (holds : v.Holds head b depth)
    (leaves : monitorDepth? depth (v.block b).stmts = none) (old : ∀ f, body.follow = some f → v.Released head f)
    (found : (v.leaveSync b body).follow = some f) : v.Released head f := by
  unfold leaveSync at found
  split at found
  · exact old f found
  · rename_i plain
    simp only at found
    split at found
    · rename_i next first
      split at found
      · cases found
        obtain ⟨arc, way, rfl⟩ := List.mem_map.mp (mem_of_earliest first)
        obtain ⟨leaving, ahead⟩ := List.mem_filter.mp way
        simp only [Bool.and_eq_true, Bool.not_eq_true'] at ahead
        exact ⟨b, depth, holds, leaves, by simpa using plain, arc, leaving, ahead.1, ahead.2, rfl⟩
      · exact old f found
    · exact old f found

theorem Explored.leave (explored : v.Explored head ((b, depth) :: queue) body) (fresh : b ∉ body.seen)
    (leaves : monitorDepth? depth (v.block b).stmts = none) :
    v.Explored head queue (v.leaveSync b { body with seen := b :: body.seen }) := by
  rw [← List.append_nil queue]
  refine explored.note fresh (v.leaveSync_seen b _) (fun c => by simp [mem_leaveSync, leaves]) (by simp) (by simp [leaves])
    fun f => released_of_leaveSync (explored.queued (b, depth) (.head _)) leaves explored.follow

theorem Explored.stay {depth' : Nat} (explored : v.Explored head ((b, depth) :: queue) body) (fresh : b ∉ body.seen)
    (stays : monitorDepth? depth (v.block b).stmts = some depth') :
    v.Explored head (queue ++ (v.flow.forwardSuccs b).map fun succ => (succ, depth'))
      { body with seen := b :: body.seen, members := body.members ++ [b] } := by
  refine explored.note fresh rfl (fun c => by simp [stays]) (fun entry member => ?_) (fun _ _ c leads => ?_) explored.follow
  · obtain ⟨c, leads, rfl⟩ := List.mem_map.mp member
    exact .onward (explored.queued (b, depth) (.head _)) stays leads
  · simpa using leads

/-- The edges that leave blocks which were not entered yet. -/
def openArcs (v : View n) (seen : List (Fin n)) : Nat := ∑ b ∈ seen.toFinsetᶜ, (v.outs b).length

theorem openArcs_cons {seen : List (Fin n)} (fresh : b ∉ seen) :
    v.openArcs seen = (v.outs b).length + v.openArcs (b :: seen) := by
  rw [openArcs, openArcs, List.toFinset_cons, Finset.compl_insert]
  exact (Finset.add_sum_erase _ _ (by simpa using fresh)).symm

theorem openArcs_nil (v : View n) : v.openArcs [] = v.arcCount := by
  have listed : v.flow.outs.toList = (List.finRange n).map v.outs := by
    apply List.ext_getElem <;> simp [outs, Vector.get]
  rw [openArcs, arcCount, listed, List.length_flatten, List.map_map, List.toFinset_nil, Finset.compl_empty, Fin.sum_univ_def]
  rfl

/-- By induction on the fuel, which bounds the open arcs. -/
theorem exploreSync_explored (fuel : Nat) (enough : queue.length + v.openArcs body.seen ≤ fuel)
    (explored : v.Explored head queue body) : v.Explored head [] (v.exploreSync fuel queue body) := by
  induction fuel generalizing queue body with
  | zero =>
    obtain rfl := List.eq_nil_of_length_eq_zero (show queue.length = 0 by omega)
    exact explored
  | succ fuel ih =>
    cases queue with
    | nil => exact explored
    | cons entry queue =>
      obtain ⟨b, depth⟩ := entry
      rw [List.length_cons] at enough
      rw [exploreSync]
      split
      · rename_i known
        exact ih (by omega) (explored.again (by simpa using known))
      · rename_i fresh
        have fresh : b ∉ body.seen := by simpa using fresh
        have fewer := v.openArcs_cons fresh
        simp only
        split
        · rename_i leaves
          refine ih ?_ (explored.leave fresh leaves)
          simp only [leaveSync_seen]
          omega
        · rename_i depth' stays
          refine ih ?_ (explored.stay fresh stays)
          have few : (v.flow.forwardSuccs b).length ≤ (v.outs b).length := by
            simp only [Flow.forwardSuccs, List.length_map]
            exact List.length_filter_le _ _
          simp only [List.length_append, List.length_map]
          omega

theorem syncBody_explored (v : View n) (head : Fin n) : v.Explored head [] (v.syncBody head) := by
  refine exploreSync_explored _ ?_ ⟨fun b found => ?_, fun entry member => ?_, by simp, by simp, by simp⟩
  · rw [openArcs_nil, List.length_map]
    have := Option.length_toList_le (o := v.targetOf .sequence head)
    omega
  · simp [Awaited, found]
  · obtain ⟨first, chosen, rfl⟩ := List.mem_map.mp member
    exact .first (by simpa using chosen)

/-- If the edge behind the head goes ahead, the monitor is held in blocks behind the head only. -/
theorem Oriented.holds (oriented : v.Oriented start reached) (atHead : reached head)
    (ahead : ∀ arc ∈ v.outs head, arc.kind = .sequence → arc.back = false) (holds : v.Holds head b depth) :
    reached b ∧ v.number b < v.number head := by
  induction holds with
  | first found =>
    obtain ⟨arc, leaves, isSequence, rfl⟩ := mem_of_targetOf found
    exact ⟨oriented.onward atHead leaves, oriented.forward atHead leaves (ahead arc leaves isSequence)⟩
  | onward _ _ leads ih =>
    obtain ⟨arc, leaves, forward, rfl⟩ := mem_forwardSuccs.mp leads
    exact ⟨oriented.onward ih.1 leaves, (oriented.forward ih.1 leaves forward).trans ih.2⟩

/-- The follow of a synchronized region is outside, if no block is entered both with the monitor and after it is given
up. -/
theorem Oriented.syncBody (oriented : v.Oriented start reached) (atHead : reached head)
    (ahead : ∀ arc ∈ v.outs head, arc.kind = .sequence → arc.back = false)
    (apart : ∀ b, v.Released head b → ∀ depth, ¬ v.Holds head b depth) {f : Fin n}
    (follow : (v.syncBody head).follow = some f) : f ≠ head ∧ f ∉ (v.syncBody head).members := by
  have explored := v.syncBody_explored head
  have released := explored.follow f follow
  refine ⟨?_, fun member => ?_⟩
  · obtain ⟨source, depth, holds, _, _, arc, leaves, _, forward, rfl⟩ := released
    obtain ⟨atSource, lower⟩ := oriented.holds atHead ahead holds
    have lower' := oriented.forward atSource leaves forward
    intro same
    rw [same] at lower'
    omega
  · obtain ⟨depth, holds, _⟩ := explored.settled f (explored.members f member)
    exact apart f released depth holds

end Unstack.View
