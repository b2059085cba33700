import Mathlib.Data.Fintype.Card
import Mathlib.Logic.Relation
import Unstack.Proofs.Graph.Exit

namespace Unstack

/-- Steps from the start to a place without repetition, the last place first. -/
inductive Trail {α : Type} (step : α → α → Prop) (start : α) : α → List α → Prop
  | start : Trail step start start [start]
  | step {a b : α} {path : List α} : Trail step start a path → step a b → b ∉ path → Trail step start b (b :: path)

namespace Trail

variable {α β : Type} {step : α → α → Prop} {start b : α} {path : List α}

theorem nodup (trail : Trail step start b path) : path.Nodup := by
  induction trail with
  | start => simp
  | step _ _ fresh ih => exact List.nodup_cons.mpr ⟨fresh, ih⟩

theorem mem (trail : Trail step start b path) : b ∈ path := by
  cases trail <;> exact .head _

theorem map {step' : β → β → Prop} {place : α → β} (trail : Trail step start b path)
    (steps : ∀ a b, step a b → step' (place a) (place b)) (injective : Function.Injective place) :
    Trail step' (place start) (place b) (path.map place) := by
  induction trail with
  | start => exact .start
  | step _ one fresh ih => exact .step ih (steps _ _ one) (mt (List.mem_map_of_injective injective).mp fresh)

theorem reaches (trail : Trail step start b path) : Relation.ReflTransGen step start b := by
  induction trail with
  | start => exact .refl
  | step _ one _ ih => exact ih.tail one

end Trail

namespace Flow

variable {n : Nat}

def Steps (f : Flow n) (b c : Fin n) : Prop := ∃ arc ∈ f.outs.get b, arc.target = c

/-- Some edges lead from one block to the other, one after the other. -/
def Reaches (f : Flow n) : Fin n → Fin n → Prop := Relation.ReflTransGen f.Steps

/-- What a search along a path knows. The blocks it has entered form one line, those of the path before those
it has left; this is the order in which it will have left them all, the latest first. -/
structure Orderly (f : Flow n) (start : Fin n) (path : List (Fin n)) (w : Walk n) : Prop where
  once : (path.reverse ++ w.left).Nodup
  seen (x : Fin n) : x ∈ w.seen ↔ x ∈ path.reverse ++ w.left
  reached (x : Fin n) : x ∈ w.seen → f.Reaches start x
  closed (x y : Fin n) : x ∈ w.left → f.Steps x y → y ∈ w.seen
  forward (x : Fin n) (arc : Arc n) : x ∈ w.left → arc ∈ f.outs.get x →
    arc.edge ∈ w.back ∨ [x, arc.target].Sublist w.left
  back (e : EdgeId) : e ∈ w.back → ∃ x arc trail, arc ∈ f.outs.get x ∧ arc.edge = e ∧ Trail f.Steps start x trail ∧
    arc.target ∈ trail ∧ (arc.target = x ∨ [arc.target, x].Sublist (path.reverse ++ w.left))
  parent (x : Fin n) : x ∈ path.reverse ++ w.left → x = start ∨
    ∃ y, f.Steps y x ∧ [y, x].Sublist (path.reverse ++ w.left)

namespace Orderly

variable {f : Flow n} {start b : Fin n} {path : List (Fin n)} {w : Walk n}

/-- A block that is entered comes after its path and before all that was left. -/
theorem enter (orderly : Orderly f start path w) (trail : Trail f.Steps start b (b :: path)) (fresh : b ∉ w.seen) :
    Orderly f start (b :: path) { w with seen := b :: w.seen } := by
  have line : (b :: path).reverse ++ w.left = path.reverse ++ b :: w.left := by simp
  have longer : (path.reverse ++ w.left).Sublist (path.reverse ++ b :: w.left) :=
    (List.sublist_cons_self b w.left).append_left _
  have new : b ∉ path.reverse ++ w.left := mt (orderly.seen b).mpr fresh
  constructor
  · rw [line]
    exact List.nodup_middle.mpr (List.nodup_cons.mpr ⟨new, orderly.once⟩)
  · intro x
    rw [line, List.mem_cons, orderly.seen, List.mem_append, List.mem_append, List.mem_cons]
    tauto
  · intro x member
    rcases List.mem_cons.mp member with rfl | old
    · exact trail.reaches
    · exact orderly.reached x old
  · exact fun x y left step => .tail b (orderly.closed x y left step)
  · exact orderly.forward
  · intro e member
    obtain ⟨x, arc, trail', leaves, edge, along, onTrail, order⟩ := orderly.back e member
    rw [line]
    exact ⟨x, arc, trail', leaves, edge, along, onTrail, order.imp_right (·.trans longer)⟩
  · intro x member
    rw [line] at member ⊢
    by_cases here : x = b
    · subst here
      cases trail with
      | start => exact .inl rfl
      | step before step _ =>
        have first := List.singleton_sublist.mpr (List.mem_reverse.mpr before.mem)
        exact .inr ⟨_, step, first.append (List.singleton_sublist.mpr (.head _))⟩
    · have old : x ∈ path.reverse ++ w.left := by
        rw [List.mem_append, List.mem_cons] at member
        rw [List.mem_append]
        tauto
      refine (orderly.parent x old).imp_right fun above => ?_
      obtain ⟨y, step, order⟩ := above
      exact ⟨y, step, order.trans longer⟩

theorem mark (orderly : Orderly f start (b :: path) w) (trail : Trail f.Steps start b (b :: path)) {arc : Arc n}
    (leaves : arc ∈ f.outs.get b) (onPath : arc.target ∈ b :: path) :
    Orderly f start (b :: path) { w with back := arc.edge :: w.back } := by
  refine ⟨orderly.once, orderly.seen, orderly.reached, orderly.closed, fun x arc' left member => ?_, fun e member => ?_,
    orderly.parent⟩
  · exact (orderly.forward x arc' left member).imp_left (.tail _)
  · rcases List.mem_cons.mp member with rfl | old
    · refine ⟨b, arc, b :: path, leaves, rfl, trail, onPath, ?_⟩
      refine (List.mem_cons.mp onPath).imp_right fun above => ?_
      have first := List.singleton_sublist.mpr (List.mem_reverse.mpr above)
      have line : (b :: path).reverse ++ w.left = path.reverse ++ b :: w.left := by simp
      rw [line]
      exact first.append (List.singleton_sublist.mpr (.head _))
    · exact orderly.back e old

/-- A block is left when each of its edges goes back or leads to a block that was left. -/
theorem leave (orderly : Orderly f start (b :: path) w)
    (all : ∀ arc ∈ f.outs.get b, arc.target ∈ b :: path ∧ arc.edge ∈ w.back ∨ arc.target ∈ w.left) :
    Orderly f start path { w with left := b :: w.left } := by
  have line : (b :: path).reverse ++ w.left = path.reverse ++ b :: w.left := by simp
  have ⟨once, seen, reached, closed, forward, back, parent⟩ := orderly
  rw [line] at once
  simp only [line] at seen back parent
  refine ⟨once, seen, reached, fun x y left step => ?_, fun x arc left member => ?_, back, parent⟩
  · rcases List.mem_cons.mp left with rfl | left
    · obtain ⟨arc, member, rfl⟩ := step
      refine (orderly.seen _).mpr (List.mem_append.mpr ((all arc member).imp_left fun back => ?_))
      exact List.mem_reverse.mpr back.1
    · exact closed x y left step
  · rcases List.mem_cons.mp left with rfl | left
    · refine (all arc member).imp And.right fun target => ?_
      exact .cons_cons x (List.singleton_sublist.mpr target)
    · exact (forward x arc left member).imp_right (.cons b)

end Orderly

/-- By induction on the fuel, which bounds the rest of the path. -/
theorem visit_orderly (f : Flow n) {start : Fin n} (fuel : Nat) (path : List (Fin n)) (b : Fin n) (w : Walk n)
    (enough : fuel + path.length = n) (trail : Trail f.Steps start b (b :: path)) (orderly : Orderly f start path w)
    (fresh : b ∉ w.seen) :
    Orderly f start path (f.visit fuel path b w) ∧ b ∈ (f.visit fuel path b w).left ∧
      w.left ⊆ (f.visit fuel path b w).left ∧ w.back ⊆ (f.visit fuel path b w).back := by
  induction fuel generalizing path b w with
  | zero =>
    have bound := trail.nodup.length_le_card
    simp only [List.length_cons, Fintype.card_fin] at bound
    omega
  | succ fuel ih =>
    -- After some edges of `b` each of them goes back or leads to a block that was left.
    have edges (arcs : List (Arc n)) (w' : Walk n) (leave : ∀ arc ∈ arcs, arc ∈ f.outs.get b)
        (so_far : Orderly f start (b :: path) w') :
        let last := arcs.foldl
          (fun w arc =>
            if arc.target ∉ w.seen then f.visit fuel (b :: path) arc.target w
            else if arc.target ∈ b :: path then { w with back := arc.edge :: w.back }
            else w)
          w'
        Orderly f start (b :: path) last ∧ w'.left ⊆ last.left ∧ w'.back ⊆ last.back ∧
          ∀ arc ∈ arcs, arc.target ∈ b :: path ∧ arc.edge ∈ last.back ∨ arc.target ∈ last.left := by
      induction arcs generalizing w' with
      | nil => exact ⟨so_far, List.Subset.refl _, List.Subset.refl _, by simp⟩
      | cons arc rest next =>
        have leaves := leave arc (.head _)
        have later (arc' : Arc n) (member : arc' ∈ rest) := leave arc' (.tail arc member)
        simp only [List.foldl_cons]
        by_cases entered : arc.target ∈ w'.seen
        · rw [if_neg (not_not.mpr entered)]
          by_cases onPath : arc.target ∈ b :: path
          · rw [if_pos onPath]
            obtain ⟨last, left, back, done⟩ := next _ later (so_far.mark trail leaves onPath)
            refine ⟨last, left, fun e member => back (.tail _ member), ?_⟩
            exact List.forall_mem_cons.mpr ⟨.inl ⟨onPath, back (.head _)⟩, done⟩
          · rw [if_neg onPath]
            obtain ⟨last, left, back, done⟩ := next w' later so_far
            have target : arc.target ∈ w'.left := by
              have inLine := (so_far.seen arc.target).mp entered
              rw [List.mem_append, List.mem_reverse] at inLine
              exact inLine.resolve_left onPath
            exact ⟨last, left, back, List.forall_mem_cons.mpr ⟨.inr (left target), done⟩⟩
        · rw [if_pos entered]
          have onward : Trail f.Steps start arc.target (arc.target :: b :: path) := by
            refine .step trail ⟨arc, leaves, rfl⟩ fun onPath => entered ?_
            rw [so_far.seen, List.mem_append, List.mem_reverse]
            exact .inl onPath
          obtain ⟨visited, target, left', back'⟩ :=
            ih (b :: path) arc.target w' (by simp only [List.length_cons]; omega) onward so_far entered
          obtain ⟨last, left, back, done⟩ := next _ later visited
          refine ⟨last, fun x member => left (left' member), fun e member => back (back' member), ?_⟩
          exact List.forall_mem_cons.mpr ⟨.inr (left target), done⟩
    obtain ⟨last, left, back, done⟩ := edges (f.outs.get b) { w with seen := b :: w.seen } (fun _ member => member)
      (orderly.enter trail fresh)
    simp only [visit]
    exact ⟨last.leave done, .head _, fun x member => .tail b (left member), back⟩

theorem walk_orderly (f : Flow n) (start : Fin n) :
    Orderly f start [] (f.walk start) ∧ start ∈ (f.walk start).left := by
  obtain ⟨orderly, entered, _⟩ := f.visit_orderly n [] start ⟨[], [], []⟩ rfl .start (by constructor <;> simp) (by simp)
  exact ⟨orderly, entered⟩

/-- The blocks that the search leaves are those that the start reaches. -/
theorem mem_walk_left (f : Flow n) (start b : Fin n) : b ∈ (f.walk start).left ↔ f.Reaches start b := by
  obtain ⟨orderly, entered⟩ := f.walk_orderly start
  refine ⟨fun left => orderly.reached b ((orderly.seen b).mpr left), fun reaches => ?_⟩
  induction reaches with
  | refl => exact entered
  | tail _ step ih => exact (orderly.seen _).mp (orderly.closed _ _ ih step)

theorem mem_walk_seen (f : Flow n) (start b : Fin n) : b ∈ (f.walk start).seen ↔ f.Reaches start b :=
  ((f.walk_orderly start).1.seen b).trans (f.mem_walk_left start b)

theorem walk_left_nodup (f : Flow n) (start : Fin n) : (f.walk start).left.Nodup := (f.walk_orderly start).1.once

end Flow

theorem vector_mapM_total {ε α β : Type} {n : Nat} {f : α → Except ε β} {xs : Vector α n}
    (each : ∀ i : Fin n, ∃ y, f (xs.get i) = .ok y) :
    ∃ ys : Vector β n, xs.mapM f = .ok ys ∧ ∀ i : Fin n, f (xs.get i) = .ok (ys.get i) := by
  obtain ⟨items, run⟩ : ∃ items, xs.toList.mapM f = .ok items := by
    refine mapM_total fun x member => ?_
    obtain ⟨i, inside, rfl⟩ := List.mem_iff_getElem.mp member
    exact each ⟨i, by simpa using inside⟩
  have viaArray : Vector.toArray <$> xs.mapM f = xs.toArray.mapM f := Vector.toArray_mapM
  rw [Array.mapM_eq_mapM_toList, Vector.toList_toArray, run] at viaArray
  cases outcome : xs.mapM f with
  | error e => simp [outcome, Functor.map, Except.map] at viaArray
  | ok ys =>
    refine ⟨ys, rfl, fun i => ?_⟩
    have same : ys.toArray = items.toArray := by simpa [outcome, Functor.map, Except.map] using viaArray
    have atIndex : items.length = n := by simpa using (congrArg Array.size same).symm
    have pair := (mapM_eq_ok.mp run).get (i := i) (by simp) (by rw [atIndex]; exact i.isLt)
    simpa [Vector.get, same] using pair

namespace Graph

variable {g : Graph} {f : Flow g.size}

/-- A resolved edge says what the edge says. -/
def Shows (g : Graph) (arc : Arc g.size) : Prop :=
  ∃ edge, g.edges[arc.edge]? = some edge ∧ edge.removed = false ∧ edge.source = arc.source ∧
    edge.target = arc.target ∧ edge.kind = arc.kind ∧ edge.back = arc.back

theorem Joins.arc (wired : g.Wired) {e : EdgeId} {source target : BlockId} (joins : g.Joins e source target) :
    ∃ arc, g.arc e = .ok arc ∧ arc.edge = e ∧ g.Shows arc := by
  have ends := wired.ends_live e source target joins
  obtain ⟨edge, found, used, rfl, rfl⟩ := joins
  refine ⟨⟨e, ⟨edge.source, ends.1.lt⟩, ⟨edge.target, ends.2.lt⟩, edge.kind, edge.back⟩, ?_, rfl,
    edge, found, used, rfl, rfl, rfl, rfl⟩
  have sourceInside : edge.source < g.size := ends.1.lt
  have targetInside : edge.target < g.size := ends.2.lt
  simp only [Graph.arc, edge_eq_ok.mpr found, node, dif_pos sourceInside, dif_pos targetInside, ok_bind]
  rfl

/-- The resolved edges are the edges of the graph, in the same order. -/
structure Reflects (g : Graph) (f : Flow g.size) : Prop where
  outs (b : Fin g.size) : (f.outs.get b).map Arc.edge = g.outsOf b
  ins (b : Fin g.size) : (f.ins.get b).map Arc.edge = g.insOf b
  out_shows (b : Fin g.size) (arc : Arc g.size) : arc ∈ f.outs.get b → g.Shows arc
  in_shows (b : Fin g.size) (arc : Arc g.size) : arc ∈ f.ins.get b → g.Shows arc

theorem Wired.arcs_total (wired : g.Wired) {names : List EdgeId}
    (used : ∀ e ∈ names, ∃ source target, g.Joins e source target) :
    ∃ arcs, names.mapM g.arc = .ok arcs ∧ arcs.map Arc.edge = names ∧ ∀ arc ∈ arcs, g.Shows arc := by
  induction names with
  | nil => exact ⟨[], rfl, rfl, by simp⟩
  | cons e rest ih =>
    obtain ⟨source, target, joins⟩ := used e (.head _)
    obtain ⟨arc, resolved, edge, shows⟩ := joins.arc wired
    obtain ⟨arcs, run, edges, all⟩ := ih fun e' member => used e' (.tail e member)
    refine ⟨arc :: arcs, ?_, by simp [edge, edges], List.forall_mem_cons.mpr ⟨shows, all⟩⟩
    rw [List.mapM_cons, resolved, ok_bind, run]
    rfl

theorem Wired.flow_total (wired : g.Wired) : ∃ f, g.flow = .ok f ∧ g.Reflects f := by
  have found (b : Fin g.size) : g.blocks[b.val]? = some (g.blocks.toVector.get b) :=
    Array.getElem?_eq_getElem (show b.val < g.blocks.size from b.isLt)
  have outs (b : Fin g.size) := wired.arcs_total fun e (member : e ∈ (g.blocks.toVector.get b).outs) =>
    ⟨_, (wired.mem_outs b e).mp (outsOf_eq (found b) ▸ member)⟩
  have ins (b : Fin g.size) := wired.arcs_total fun e (member : e ∈ (g.blocks.toVector.get b).ins) => by
    obtain ⟨source, joins⟩ := (wired.mem_ins b e).mp (insOf_eq (found b) ▸ member)
    exact ⟨source, _, joins⟩
  obtain ⟨outArcs, runOuts, atOut⟩ := vector_mapM_total (f := fun block : Block => block.outs.mapM g.arc)
    fun b => (outs b).imp fun _ facts => facts.1
  obtain ⟨inArcs, runIns, atIn⟩ := vector_mapM_total (f := fun block : Block => block.ins.mapM g.arc)
    fun b => (ins b).imp fun _ facts => facts.1
  have outFacts (b : Fin g.size) : (outArcs.get b).map Arc.edge = g.outsOf b ∧ ∀ arc ∈ outArcs.get b, g.Shows arc := by
    obtain ⟨arcs, run, facts⟩ := outs b
    cases run.ok_unique (atOut b)
    rwa [outsOf_eq (found b)]
  have inFacts (b : Fin g.size) : (inArcs.get b).map Arc.edge = g.insOf b ∧ ∀ arc ∈ inArcs.get b, g.Shows arc := by
    obtain ⟨arcs, run, facts⟩ := ins b
    cases run.ok_unique (atIn b)
    rwa [insOf_eq (found b)]
  refine ⟨⟨outArcs, inArcs⟩, ?_, fun b => (outFacts b).1, fun b => (inFacts b).1, fun b => (outFacts b).2,
    fun b => (inFacts b).2⟩
  simp only [flow]
  rw [runOuts, ok_bind, runIns]
  rfl

/-- One edge leads from a block to the other. -/
def Steps (g : Graph) (b c : BlockId) : Prop := ∃ e, g.Joins e b c

/-- The start of the method reaches the block. -/
def Reachable (g : Graph) : BlockId → Prop := Relation.ReflTransGen g.Steps g.start

theorem Reflects.arc_joins (reflects : g.Reflects f) (wired : g.Wired) {b : Fin g.size} {arc : Arc g.size}
    (member : arc ∈ f.outs.get b) : g.Joins arc.edge b arc.target := by
  obtain ⟨edge, found, used, _, atTarget, _⟩ := reflects.out_shows b arc member
  have leaves : arc.edge ∈ g.outsOf b := reflects.outs b ▸ List.mem_map_of_mem member
  obtain ⟨target, edge', found', _, atSource, _⟩ := (wired.mem_outs b _).mp leaves
  cases found.some_unique found'
  exact ⟨edge, found, used, atSource, atTarget⟩

theorem Reflects.steps_iff (reflects : g.Reflects f) (wired : g.Wired) (b c : Fin g.size) :
    f.Steps b c ↔ g.Steps b c := by
  constructor
  · rintro ⟨arc, member, rfl⟩
    exact ⟨arc.edge, reflects.arc_joins wired member⟩
  · rintro ⟨e, joins⟩
    have leaves := (wired.mem_outs b e).mpr ⟨_, joins⟩
    rw [← reflects.outs b] at leaves
    obtain ⟨arc, member, rfl⟩ := List.mem_map.mp leaves
    obtain ⟨edge, found, _, _, atTarget, _⟩ := reflects.out_shows b arc member
    obtain ⟨edge', found', _, _, atTarget'⟩ := joins
    cases found.some_unique found'
    exact ⟨arc, member, Fin.ext (atTarget.symm.trans atTarget')⟩

theorem Reflects.reaches_iff (reflects : g.Reflects f) (wired : g.Wired) (b : Fin g.size) (c : BlockId) :
    Relation.ReflTransGen g.Steps b c ↔ ∃ i : Fin g.size, i.val = c ∧ f.Reaches b i := by
  constructor
  · intro reaches
    induction reaches with
    | refl => exact ⟨b, rfl, .refl⟩
    | tail _ step ih =>
      obtain ⟨i, rfl, reaches⟩ := ih
      obtain ⟨e, joins⟩ := step
      have inside := (wired.ends_live _ _ _ joins).2.lt
      exact ⟨⟨_, inside⟩, rfl, reaches.tail ((reflects.steps_iff wired i ⟨_, inside⟩).mpr ⟨e, joins⟩)⟩
  · rintro ⟨i, rfl, reaches⟩
    induction reaches with
    | refl => exact .refl
    | tail _ step ih => exact ih.tail ((reflects.steps_iff wired _ _).mp step)

/-- What numbering the blocks changes: numbers, marks of back edges, and the order in which reachable blocks
are listed. -/
structure Renumbered (g g' : Graph) : Prop where
  blocks (b : BlockId) : ∃ number : Block → Nat,
    g'.blocks[b]? = g.blocks[b]?.map fun block => { block with postorder := number block }
  edges (e : EdgeId) : ∃ back : Bool, g'.edges[e]? = g.edges[e]?.map fun edge => { edge with back }
  rest : g' = { g with blocks := g'.blocks, edges := g'.edges, postorder := g'.postorder }
  listed (b : BlockId) : b ∈ g'.postorder ↔ g.Reachable b
  once : g'.postorder.Nodup

namespace Renumbered

variable {g' : Graph}

theorem sameBodies (numbered : Renumbered g g') : SameBodies g g' := by
  refine ⟨⟨by rw [numbered.rest], by rw [numbered.rest], fun b => ?_⟩, by rw [numbered.rest], fun raw b block here => ?_⟩
  · obtain ⟨number, found⟩ := numbered.blocks b
    simp only [bodyOf, found, Option.map_map]
    rfl
  · obtain ⟨number, found⟩ := numbered.blocks b
    obtain ⟨old, atOld, rfl⟩ := Option.map_eq_some_iff.mp (found.symm.trans here)
    exact raw b old atOld

theorem outsOf (numbered : Renumbered g g') (b : BlockId) : g'.outsOf b = g.outsOf b := by
  obtain ⟨number, found⟩ := numbered.blocks b
  simp only [Graph.outsOf, found, Option.map_map]
  rfl

theorem insOf (numbered : Renumbered g g') (b : BlockId) : g'.insOf b = g.insOf b := by
  obtain ⟨number, found⟩ := numbered.blocks b
  simp only [Graph.insOf, found, Option.map_map]
  rfl

theorem joins_iff (numbered : Renumbered g g') (e : EdgeId) (source target : BlockId) :
    g'.Joins e source target ↔ g.Joins e source target := by
  refine SameEnds.joins_iff (fun e => ?_) e source target
  obtain ⟨back, found⟩ := numbered.edges e
  simp only [found, Option.map_map]
  rfl

theorem wired (numbered : Renumbered g g') (wired : g.Wired) : g'.Wired :=
  wired.congr numbered.outsOf numbered.insOf numbered.joins_iff fun _ => numbered.sameBodies.live

theorem exitOf (numbered : Renumbered g g') (e : EdgeId) : g'.exitOf e = g.exitOf e := by
  refine exitOf_congr ?_ fun i => ?_
  · obtain ⟨back, found⟩ := numbered.edges e
    simp only [found, Option.map_map]
    rfl
  · obtain ⟨number, found⟩ := numbered.blocks i
    simp only [found, Option.map_map]
    rfl

theorem flowExits (numbered : Renumbered g g') (b : BlockId) : g'.flowExits b = g.flowExits b :=
  flowExits_congr b (numbered.outsOf b) fun e _ => congrArg _ (numbered.exitOf e)

theorem start (numbered : Renumbered g g') : g'.start = g.start := by rw [numbered.rest]

theorem reachable_iff (numbered : Renumbered g g') (b : BlockId) : g'.Reachable b ↔ g.Reachable b := by
  have steps : g'.Steps = g.Steps := by
    funext b c
    simp only [Steps, numbered.joins_iff]
  rw [Reachable, Reachable, steps, numbered.start]

end Renumbered

theorem Wired.reachable_lt (wired : g.Wired) (inside : g.start < g.size) {b : BlockId} (reached : g.Reachable b) :
    b < g.size := by
  obtain ⟨f, _, reflects⟩ := wired.flow_total
  obtain ⟨i, rfl, _⟩ := (reflects.reaches_iff wired ⟨g.start, inside⟩ b).mp reached
  exact i.isLt

/-- Numbering meets no fault and changes numbers and marks only. -/
theorem Wired.renumber (wired : g.Wired) (inside : g.start < g.size) : ∃ g', g.renumber = .ok g' ∧ Renumbered g g' := by
  obtain ⟨f, run, reflects⟩ := wired.flow_total
  simp only [Graph.renumber, run, node, dif_pos inside, ok_bind]
  refine ⟨_, rfl, ?_, ?_, rfl, ?_, ?_⟩
  · intro b
    simp only [Array.getElem?_mapIdx]
    split
    · exact ⟨fun _ => _, rfl⟩
    · exact ⟨Block.postorder, by simp⟩
  · intro e
    exact ⟨_, Array.getElem?_mapIdx⟩
  · intro b
    simp only [List.mem_map, List.mem_reverse, Flow.mem_walk_left]
    rw [Reachable, reflects.reaches_iff wired ⟨g.start, inside⟩]
    simp [and_comm]
  · exact (List.nodup_reverse.mpr (f.walk_left_nodup _)).map Fin.val_injective

end Graph

end Unstack
