import Unstack.Proofs.Graph.Search
import Unstack.Region.View

namespace Unstack

/-- Each result of a vector comes from the item at its place. -/
theorem vector_mapM_get {ε α β : Type} {n : Nat} {f : α → Except ε β} {xs : Vector α n} {ys : Vector β n}
    (run : xs.mapM f = .ok ys) (i : Fin n) : f (xs.get i) = .ok (ys.get i) := by
  have each (i : Fin n) : ∃ y, f (xs.get i) = .ok y := by
    have viaArray : Vector.toArray <$> xs.mapM f = xs.toArray.mapM f := Vector.toArray_mapM
    rw [Array.mapM_eq_mapM_toList, Vector.toList_toArray, run] at viaArray
    cases all : xs.toList.mapM f with
    | error e => simp [all, Functor.map, Except.map] at viaArray
    | ok items =>
      obtain ⟨y, _, found⟩ := (mapM_mem all).1 (xs.get i) (by simp [Vector.get])
      exact ⟨y, found⟩
  obtain ⟨ys', run', at'⟩ := vector_mapM_total each
  cases run.ok_unique run'
  exact at' i

namespace Graph

variable {g : Graph} {arcs : List (Arc g.size)}

/-- A resolved edge is the edge that it names. -/
def Names (g : Graph) (arc : Arc g.size) : Prop :=
  ∃ edge, g.edges[arc.edge]? = some edge ∧ edge.source = arc.source ∧ edge.target = arc.target ∧
    edge.kind = arc.kind ∧ edge.back = arc.back

theorem arc_eq_ok {e : EdgeId} {arc : Arc g.size} (run : g.arc e = .ok arc) : arc.edge = e ∧ g.Names arc := by
  obtain ⟨edge, found, run⟩ := bind_eq_ok.mp run
  obtain ⟨source, atSource, run⟩ := bind_eq_ok.mp run
  obtain ⟨target, atTarget, run⟩ := bind_eq_ok.mp run
  cases run
  have val {b : BlockId} {i : Fin g.size} (run : g.node b = .ok i) : b = i := by
    unfold node at run
    split at run
    · cases run
      rfl
    · cases run
  exact ⟨rfl, edge, edge_eq_ok.mp found, val atSource, val atTarget, rfl, rfl⟩

theorem arcs_eq_ok {names : List EdgeId} (run : names.mapM g.arc = .ok arcs) :
    arcs.map Arc.edge = names ∧ ∀ arc ∈ arcs, g.Names arc := by
  constructor
  · induction mapM_eq_ok.mp run with
    | nil => rfl
    | cons first others ih =>
      rw [List.map_cons, (arc_eq_ok first).1, ih (mapM_eq_ok.mpr others)]
  · intro arc member
    obtain ⟨e, _, found⟩ := (mapM_mem run).2 arc member
    exact (arc_eq_ok found).2

/-- The view shows the graph: its blocks, and the edges that they list. Nothing is said of edges that are not listed. -/
structure Resolves (g : Graph) (v : View g.size) : Prop where
  block (b : Fin g.size) : g.blocks[b.val]? = some (v.block b)
  outs (b : Fin g.size) : (v.outs b).map Arc.edge = g.outsOf b
  ins (b : Fin g.size) : (v.ins b).map Arc.edge = g.insOf b
  out_names {b : Fin g.size} {arc : Arc g.size} : arc ∈ v.outs b → g.Names arc
  in_names {b : Fin g.size} {arc : Arc g.size} : arc ∈ v.ins b → g.Names arc

theorem resolves_of_view {v : View g.size} (viewed : g.view = .ok v) : g.Resolves v := by
  obtain ⟨f, flowed, viewed⟩ := bind_eq_ok.mp viewed
  cases viewed
  obtain ⟨outs, leaving, flowed⟩ := bind_eq_ok.mp flowed
  obtain ⟨ins, entering, flowed⟩ := bind_eq_ok.mp flowed
  cases flowed
  have found (b : Fin g.size) : g.blocks[b.val]? = some (g.blocks.toVector.get b) :=
    Array.getElem?_eq_getElem (show b.val < g.blocks.size from b.isLt)
  have out (b : Fin g.size) := arcs_eq_ok (vector_mapM_get leaving b)
  have inn (b : Fin g.size) := arcs_eq_ok (vector_mapM_get entering b)
  exact
    { block := found
      outs := fun b => (out b).1.trans (outsOf_eq (found b)).symm
      ins := fun b => (inn b).1.trans (insOf_eq (found b)).symm
      out_names := fun member => (out _).2 _ member
      in_names := fun member => (inn _).2 _ member }

/-- The edge that a resolved one names. -/
def read (g : Graph) (arc : Arc g.size) : Edge := g.edges[arc.edge]?.getD default

theorem Names.read {arc : Arc g.size} (names : g.Names arc) :
    g.edge arc.edge = .ok (g.read arc) ∧ (g.read arc).target = arc.target ∧ (g.read arc).kind = arc.kind ∧
      (g.read arc).back = arc.back := by
  obtain ⟨edge, found, _, target, kind, back⟩ := names
  have same : g.read arc = edge := by simp [Graph.read, found]
  rw [same]
  exact ⟨edge_eq_ok.mpr found, target, kind, back⟩

/-- Arcs are read as the edges that they name. -/
theorem read_all (names : ∀ arc ∈ arcs, g.Names arc) :
    ((arcs.map Arc.edge).mapM fun e => do return (e, ← g.edge e)) = .ok (arcs.map fun arc => (arc.edge, g.read arc)) := by
  rw [mapM_eq_ok, List.forall₂_map_left_iff, List.forall₂_map_right_iff, List.forall₂_same]
  intro arc member
  rw [(names arc member).read.1]
  rfl

section Resolves

variable {v : View g.size} (resolves : g.Resolves v)

include resolves

theorem Resolves.outs_eq_ok (b : Fin g.size) : g.outs b = .ok ((v.outs b).map fun arc => (arc.edge, g.read arc)) := by
  rw [Graph.outs, block_eq_ok.mpr (resolves.block b), ok_bind, ← outsOf_eq (resolves.block b), ← resolves.outs b]
  exact read_all fun arc => resolves.out_names

theorem Resolves.ins_eq_ok (b : Fin g.size) : g.ins b = .ok ((v.ins b).map fun arc => (arc.edge, g.read arc)) := by
  rw [Graph.ins, block_eq_ok.mpr (resolves.block b), ok_bind, ← insOf_eq (resolves.block b), ← resolves.ins b]
  exact read_all fun arc => resolves.in_names

theorem Resolves.succ_eq_ok (b : Fin g.size) : g.succ b = .ok ((v.targetOf .sequence b).map Fin.val) := by
  have kinds : ∀ arc ∈ v.outs b, ((g.read arc).kind == .sequence) = (arc.kind == .sequence) := fun arc member => by
    rw [(resolves.out_names member).read.2.2.1]
  have found : (v.outs b).find? (fun arc => (g.read arc).kind == .sequence) =
      (v.outs b).find? fun arc => arc.kind == .sequence := by
    generalize v.outs b = arcs at kinds
    induction arcs with
    | nil => rfl
    | cons arc rest ih =>
      rw [List.find?_cons, List.find?_cons, kinds arc (.head _),
        ih fun arc member => kinds arc (.tail _ member)]
  rw [succ, Graph.targetOf, resolves.outs_eq_ok b, ok_bind, View.targetOf, List.find?_map, Option.map_map, Option.map_map]
  refine congrArg Except.ok ((congrArg _ found).trans (Option.map_congr fun arc chosen => ?_))
  exact (resolves.out_names (List.mem_of_find?_eq_some chosen)).read.2.1

theorem Resolves.isHandler_eq_ok (b : Fin g.size) : g.isHandler b = .ok (v.isHandler b) := by
  rw [Graph.isHandler, resolves.ins_eq_ok b, ok_bind, View.isHandler, List.any_map]
  refine congrArg Except.ok (Bool.eq_iff_iff.mpr ?_)
  simp only [List.any_eq_true]
  refine exists_congr fun arc => and_congr_right fun member => ?_
  rw [Function.comp_apply, (resolves.in_names member).read.2.2.1]

end Resolves

end Graph

end Unstack
