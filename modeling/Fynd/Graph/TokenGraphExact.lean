import Fynd.Graph.PetgraphExact
import Fynd.Graph.TokenGraph

/-!
# The topology graph and its maps

What the operations of `TopologyGraph` do to the directions its components trade, and
that the pairs `TopologyGraphManager` tracks are exact. The native wrap is the
exception: its pairs stay in the graph when the manager stops tracking them.
-/

namespace Fynd

open Foundation List

variable {D : Type}

private theorem nodup_staleDirections {V : Type} (tracked : Map SwapDirection V)
    (wanted : List SwapDirection) : ((staleDirections tracked wanted).map Prod.fst).Nodup := by
  refine List.Nodup.sublist (filter_sublist.map _) ?_
  rw [map_map]
  exact tracked.nodupKeys

namespace PairEdge

/-- Whether a component serves the pair. -/
def Serves (pair : PairEdge D) (componentId : ComponentId) : Prop :=
  componentId ∈ pair.pools.map EdgeData.componentId

variable {pair : PairEdge D} {id other : ComponentId}

private theorem serves_single :
    (single id : PairEdge D).Serves other ↔ other = id := by
  simp [Serves, single, EdgeData.new]

private theorem serves_insert :
    (pair.insert id).Serves other ↔ pair.Serves other ∨ other = id := by
  unfold insert
  split
  · rename_i serves
    exact ⟨.inl, fun either => either.elim (fun old => old) fun same => same ▸ serves⟩
  · simp [Serves, EdgeData.new]

private theorem serves_remove :
    (pair.remove id).Serves other ↔ pair.Serves other ∧ other ≠ id := by
  simp only [Serves, remove, mem_map, mem_filter, decide_eq_true_eq]
  constructor
  · intro ⟨pool, ⟨member, differs⟩, same⟩
    exact ⟨⟨pool, member, same⟩, same ▸ differs⟩
  · intro ⟨⟨pool, member, same⟩, differs⟩
    exact ⟨pool, ⟨member, same ▸ differs⟩, same⟩

end PairEdge

namespace TopologyGraph

/-- Whether a component trades one node for another. -/
def Trades (graph : TopologyGraph D) (id : ComponentId) (source target : NodeIndex) : Prop :=
  ∃ edge ∈ graph.graph.edges, edge.source = source ∧ edge.target = target ∧ edge.weight.Serves id

/-- The components with the directions they trade. -/
def edgeSet (graph : TopologyGraph D) : Set HeldDirection :=
  {held | ∃ edge ∈ graph.graph.edges, ∃ pool ∈ edge.weight.pools,
    (pool.componentId, tokenOf graph.graph edge.source, tokenOf graph.graph edge.target) = held}

variable {graph : TopologyGraph D}

private theorem mem_edgeSet {held : HeldDirection} :
    held ∈ graph.edgeSet ↔ ∃ source target, graph.graph.nodes[source]? = some held.2.1 ∧
      graph.graph.nodes[target]? = some held.2.2 ∧ graph.Trades held.1 source target := by
  constructor
  · intro ⟨edge, member, pool, served, same⟩
    subst same
    obtain ⟨source, target⟩ := graph.graph.ends_lt edge member
    exact ⟨edge.source, edge.target, tokenOf_holds source, tokenOf_holds target, edge, member,
      rfl, rfl, mem_map.mpr ⟨pool, served, rfl⟩⟩
  · intro ⟨source, target, leaves, enters, edge, member, source_eq, target_eq, serves⟩
    obtain ⟨pool, served, named⟩ := mem_map.mp serves
    refine ⟨edge, member, pool, served, ?_⟩
    rw [named, source_eq, target_eq, tokenOf_eq leaves, tokenOf_eq enters]

private theorem node_unique {node other : NodeIndex} {token : Address}
    (here : graph.graph.nodes[node]? = some token)
    (there : graph.graph.nodes[other]? = some token) : node = other := by
  have first := (graph.tokens_exact token node).mpr here
  rw [(graph.tokens_exact token other).mpr there] at first
  exact (Option.some.inj first).symm

private theorem addToken_spec (graph : TopologyGraph D) (address : Address) :
    (graph.addToken address).2.graph.nodes[(graph.addToken address).1]? = some address ∧
      NodesKept graph.graph (graph.addToken address).2.graph ∧
      ∀ held, held ∈ (graph.addToken address).2.edgeSet ↔ held ∈ graph.edgeSet := by
  unfold addToken
  split
  · rename_i index known
    exact ⟨(graph.tokens_exact address index).mp known, fun _ _ holds => holds, fun _ => Iff.rfl⟩
  · have kept := nodesKept_addNode graph.graph address
    refine ⟨(graph.graph.getElem?_addNode address address _).mpr (.inr ⟨rfl, rfl⟩), kept, ?_⟩
    intro held
    refine exists_congr fun edge => and_congr_right fun member => ?_
    obtain ⟨source, target⟩ := graph.graph.ends_lt edge member
    refine exists_congr fun pool => and_congr_right fun _ => ?_
    rw [← kept.tokenOf source, ← kept.tokenOf target]
    rfl

variable {id : ComponentId} {source target : NodeIndex}

section Pair

variable {edge : StableEdge (PairEdge D)} (member : edge ∈ graph.graph.edges)
include member

private theorem trades_iff_serves :
    graph.Trades id edge.source edge.target ↔ edge.weight.Serves id := by
  constructor
  · intro ⟨pair, inGraph, leaves, enters, serves⟩
    exact edge_unique inGraph member leaves enters ▸ serves
  · exact fun serves => ⟨edge, member, rfl, rfl, serves⟩

private theorem trades_modifyPair {change : PairEdge D → PairEdge D}
    {traded : ∀ pair ∈ (graph.graph.modifyEdge edge.index change).edges, pair.weight.pools ≠ []} :
    (graph.modifyPair edge.index change traded).Trades id source target ↔
      if source = edge.source ∧ target = edge.target then (change edge.weight).Serves id
      else graph.Trades id source target := by
  change (∃ pair ∈ (graph.graph.modifyEdge edge.index change).edges, _) ↔ _
  simp only [StableDiGraph.mem_modifyEdge, exists_exists_and_eq_and, StableEdge.modify_source,
    StableEdge.modify_target]
  split
  · rename_i here
    rw [here.1, here.2]
    constructor
    · rintro ⟨pair, inGraph, leaves, enters, serves⟩
      obtain rfl := edge_unique inGraph member leaves enters
      simpa [StableEdge.modify] using serves
    · exact fun serves => ⟨edge, member, rfl, rfl, by simpa [StableEdge.modify] using serves⟩
  · rename_i elsewhere
    refine exists_congr fun pair => and_congr_right fun inGraph => and_congr_right fun leaves =>
      and_congr_right fun enters => ?_
    rw [StableEdge.modify, if_neg fun same => elsewhere ?_]
    obtain rfl := StableDiGraph.eq_of_index_eq inGraph member same
    exact ⟨leaves.symm, enters.symm⟩

end Pair

variable [NativeWrap]

@[simp]
theorem graph_markWrap (source target : NodeIndex) (id : ComponentId) :
    (graph.markWrap source target id).graph = graph.graph := by
  unfold markWrap
  split <;> rfl

/-- A component added to a pair trades it. -/
theorem addComponent_spec (id : ComponentId)
    (inside : source < graph.graph.nodes.length ∧ target < graph.graph.nodes.length) :
    (graph.addComponent source target id).graph.nodes = graph.graph.nodes ∧
      ∀ other first second, (graph.addComponent source target id).Trades other first second ↔
        graph.Trades other first second ∨ other = id ∧ first = source ∧ second = target := by
  unfold addComponent
  extract_lets marked
  have nodes : marked.graph.nodes = graph.graph.nodes := by rw [graph_markWrap]
  have trades : ∀ other first second, marked.Trades other first second ↔
      graph.Trades other first second := by
    intro other first second
    rw [Trades, graph_markWrap]
    rfl
  split
  · rename_i index known
    obtain ⟨edge, member, rfl, rfl, rfl⟩ := getEdgeIx_eq_some.mp known
    refine ⟨nodes, fun other first second => ?_⟩
    rw [trades_modifyPair member, ← trades]
    split
    · rename_i here
      rw [here.1, here.2, PairEdge.serves_insert, trades_iff_serves member]
      simp
    · rename_i elsewhere
      exact (or_iff_left fun same => elsewhere same.2).symm
  · rename_i apart
    have within : source < marked.graph.nodes.length ∧ target < marked.graph.nodes.length := by
      rwa [nodes]
    obtain ⟨-, edges_eq, nodes_eq⟩ :=
      StableDiGraph.addEdge_of_inside (PairEdge.single id : PairEdge D) within
    rw [dif_pos within]
    refine ⟨nodes_eq.trans nodes, fun other first second => ?_⟩
    rw [← trades]
    change (∃ edge ∈ (marked.graph.addEdge source target (.single id)).2.edges, _) ↔ _
    rw [edges_eq, exists_mem_cons_iff, or_comm]
    refine or_congr Iff.rfl ?_
    rw [PairEdge.serves_single]
    constructor
    · intro ⟨leaves, enters, same⟩
      exact ⟨same, leaves.symm, enters.symm⟩
    · intro ⟨same, leaves, enters⟩
      exact ⟨leaves.symm, enters.symm, same⟩

private theorem removeComponent_spec (ordinary : id ≠ nativeWrapComponent)
    (source target : NodeIndex) :
    (graph.removeComponent source target id).graph.nodes = graph.graph.nodes ∧
      ∀ other first second, (graph.removeComponent source target id).Trades other first second ↔
        graph.Trades other first second ∧ ¬ (other = id ∧ first = source ∧ second = target) := by
  unfold removeComponent
  rw [if_neg ordinary]
  split
  · rename_i apart
    refine ⟨rfl, fun other first second => ⟨fun trades => ⟨trades, fun same => ?_⟩, And.left⟩⟩
    obtain ⟨rfl, rfl, rfl⟩ := same
    obtain ⟨edge, member, leaves, enters, -⟩ := trades
    have listed := getEdgeIx_eq_some.mpr ⟨edge, member, leaves, enters, rfl⟩
    rw [apart] at listed
    cases listed
  · rename_i index known
    obtain ⟨edge, member, rfl, rfl, rfl⟩ := getEdgeIx_eq_some.mp known
    extract_lets trimmed
    split
    · refine ⟨rfl, fun other first second => ?_⟩
      rw [trades_modifyPair member]
      split
      · rename_i here
        rw [here.1, here.2, PairEdge.serves_remove, trades_iff_serves member]
        simp
      · rename_i elsewhere
        exact (and_iff_left fun same => elsewhere same.2).symm
    · rename_i emptied
      have changed : edge.modify edge.index (fun pair => pair.remove id) ∈ trimmed.edges :=
        StableDiGraph.mem_modifyEdge.mpr ⟨edge, member, rfl⟩
      have found := StableDiGraph.edge?_eq_some.mpr ⟨changed, edge.modify_index _ _⟩
      have lone : (edge.weight.remove id).pools = [] := by
        rw [found] at emptied
        simpa [StableEdge.modify] using emptied
      refine ⟨StableDiGraph.nodes_removeEdge _ _, fun other first second => ?_⟩
      change (∃ pair ∈ (graph.graph.removeEdge edge.index).edges, _) ↔ _
      simp only [StableDiGraph.mem_removeEdge]
      constructor
      · intro ⟨pair, ⟨inGraph, elsewhere⟩, leaves, enters, serves⟩
        refine ⟨⟨pair, inGraph, leaves, enters, serves⟩, fun ⟨_, here, there⟩ => elsewhere ?_⟩
        rw [edge_unique inGraph member (leaves.trans here) (enters.trans there)]
      · intro ⟨⟨pair, inGraph, leaves, enters, serves⟩, differs⟩
        refine ⟨pair, ⟨inGraph, fun here => ?_⟩, leaves, enters, serves⟩
        obtain rfl := StableDiGraph.eq_of_index_eq inGraph member here
        have left : (pair.weight.remove id).Serves other := PairEdge.serves_remove.mpr
          ⟨serves, fun same => differs ⟨same, leaves.symm, enters.symm⟩⟩
        rw [PairEdge.Serves, lone] at left
        simp at left

section

variable {direction : SwapDirection} (leaves : graph.graph.nodes[source]? = some direction.1)
  (enters : graph.graph.nodes[target]? = some direction.2) (held : HeldDirection)

include leaves enters

/-- In terms of tokens: the component gains the direction. -/
theorem mem_edgeSet_addComponent :
    held ∈ (graph.addComponent source target id).edgeSet ↔
      held ∈ graph.edgeSet ∨ held = (id, direction) := by
  obtain ⟨nodes, trades⟩ := graph.addComponent_spec id
    ⟨(List.getElem?_eq_some_iff.mp leaves).1, (List.getElem?_eq_some_iff.mp enters).1⟩
  simp only [mem_edgeSet, nodes, trades]
  constructor
  · intro ⟨first, second, here, there, either⟩
    rcases either with old | ⟨same, rfl, rfl⟩
    · exact .inl ⟨first, second, here, there, old⟩
    · rw [here, Option.some.injEq] at leaves
      rw [there, Option.some.injEq] at enters
      exact .inr (Prod.ext same (Prod.ext leaves enters))
  · intro either
    rcases either with ⟨first, second, here, there, old⟩ | rfl
    · exact ⟨first, second, here, there, .inl old⟩
    · exact ⟨source, target, leaves, enters, .inr ⟨rfl, rfl, rfl⟩⟩

/-- In terms of tokens: a component other than the wrap loses the direction. -/
theorem mem_edgeSet_removeComponent (ordinary : id ≠ nativeWrapComponent) :
    held ∈ (graph.removeComponent source target id).edgeSet ↔
      held ∈ graph.edgeSet ∧ held ≠ (id, direction) := by
  obtain ⟨nodes, trades⟩ := graph.removeComponent_spec ordinary source target
  simp only [mem_edgeSet, nodes, trades]
  constructor
  · intro ⟨first, second, here, there, old, differs⟩
    refine ⟨⟨first, second, here, there, old⟩, fun same => differs ?_⟩
    subst same
    exact ⟨rfl, node_unique here leaves, node_unique there enters⟩
  · intro ⟨⟨first, second, here, there, old⟩, differs⟩
    refine ⟨first, second, here, there, old, fun ⟨same, first_eq, second_eq⟩ => differs ?_⟩
    subst first_eq second_eq
    rw [here, Option.some.injEq] at leaves
    rw [there, Option.some.injEq] at enters
    exact Prod.ext same (Prod.ext leaves enters)

end

private theorem removeComponent_wrap (source target : NodeIndex) :
    graph.removeComponent source target nativeWrapComponent = graph := by
  rw [removeComponent, if_pos rfl]

@[simp]
theorem nodes_removeComponent (source target : NodeIndex) (id : ComponentId) :
    (graph.removeComponent source target id).graph.nodes = graph.graph.nodes := by
  by_cases wrap : id = nativeWrapComponent
  · rw [wrap, removeComponent_wrap]
  · exact (graph.removeComponent_spec wrap source target).1

end TopologyGraph

namespace TopologyGraphManager

/-- The pair the manager tracks for a direction of a component. -/
def trackedPair (manager : TopologyGraphManager D) (held : HeldDirection) :
    Option (NodeIndex × NodeIndex) :=
  (manager.componentPairs.lookup held.1).bind fun pairs => pairs.lookup held.2

/-- The components with the directions they trade. -/
def edgeSet (manager : TopologyGraphManager D) : Set HeldDirection :=
  manager.graph.edgeSet

/-- The manager with the pairs of one component as given. -/
def track (manager : TopologyGraphManager D) (id : ComponentId)
    (pairs : TrackedPairs) : TopologyGraphManager D :=
  { manager with componentPairs := manager.componentPairs.insert id pairs }

private theorem trackedPair_track (manager : TopologyGraphManager D) (id : ComponentId)
    (pairs : TrackedPairs) (held : HeldDirection) :
    (manager.track id pairs).trackedPair held =
      if held.1 = id then pairs.lookup held.2 else manager.trackedPair held := by
  rw [trackedPair, track, lookup_insert_ite]
  split <;> rfl

variable [NativeWrap]

/-- The tracked pairs join the tokens of their directions and are in the graph, and the graph
holds no other of a component but the wrap. -/
structure Exact (manager : TopologyGraphManager D) : Prop where
  placed : ∀ held pair, manager.trackedPair held = some pair →
    manager.graph.graph.nodes[pair.1]? = some held.2.1 ∧
      manager.graph.graph.nodes[pair.2]? = some held.2.2
  tracked : ∀ held, (manager.trackedPair held).isSome = true → held ∈ manager.edgeSet
  untracked : ∀ held, held.1 ≠ nativeWrapComponent → held ∈ manager.edgeSet →
    (manager.trackedPair held).isSome = true

variable {manager : TopologyGraphManager D}

/-- Only the graph and the tracked pairs matter. -/
theorem Exact.congr (exact : manager.Exact) {other : TopologyGraphManager D}
    (graph : other.graph = manager.graph)
    (tracked : ∀ held, other.trackedPair held = manager.trackedPair held) : other.Exact := by
  refine ⟨fun held pair found => ?_, fun held found => ?_, fun held ordinary found => ?_⟩
  · rw [graph]
    exact exact.placed held pair (tracked held ▸ found)
  · rw [edgeSet, graph]
    exact exact.tracked held (tracked held ▸ found)
  · rw [tracked]
    rw [edgeSet, graph] at found
    exact exact.untracked held ordinary found

variable {id : ComponentId} {pairs : TrackedPairs}

/-- A component that tracks no pair need not be tracked. -/
theorem Exact.forget (exact : (manager.track id pairs).Exact)
    (empty : ∀ direction, pairs.lookup direction = none)
    (absent : manager.componentPairs.lookup id = none) : manager.Exact := by
  refine exact.congr rfl fun held => ?_
  rw [trackedPair_track]
  split
  · rename_i mine
    rw [empty, trackedPair, mine, absent]
    rfl
  · rfl

/-- A token more keeps the pairs exact. -/
theorem Exact.addToken (exact : manager.Exact) (token : Address) :
    Exact { manager with graph := (manager.graph.addToken token).2 } := by
  obtain ⟨-, kept, same⟩ := manager.graph.addToken_spec token
  refine ⟨fun held pair tracked => ?_, fun held tracked => ?_, fun held ordinary member => ?_⟩
  · obtain ⟨leaves, enters⟩ := exact.placed held pair tracked
    exact ⟨kept _ _ leaves, kept _ _ enters⟩
  · exact (same held).mpr (exact.tracked held tracked)
  · exact exact.untracked held ordinary ((same held).mp member)

section

variable (exact : (manager.track id pairs).Exact)
include exact

/-- Dropping a tracked direction. -/
theorem dropDirection_exact {entry : SwapDirection × NodeIndex × NodeIndex}
    (listed : pairs.lookup entry.1 = some entry.2) :
    let left := dropDirection id (manager, pairs) entry
    (left.1.track id left.2).Exact ∧ ∀ held, held ∈ left.1.edgeSet ↔
      held ∈ manager.edgeSet ∧ (id = nativeWrapComponent ∨ held ≠ (id, entry.1)) := by
  intro left
  have mine : (manager.track id pairs).trackedPair (id, entry.1) = some entry.2 := by
    rw [trackedPair_track, if_pos rfl]
    exact listed
  obtain ⟨leaves, enters⟩ := exact.placed _ _ mine
  have member : ∀ held, held ∈ left.1.edgeSet ↔
      held ∈ manager.edgeSet ∧ (id = nativeWrapComponent ∨ held ≠ (id, entry.1)) := by
    intro held
    by_cases wrap : id = nativeWrapComponent
    · subst wrap
      simp [left, dropDirection, edgeSet, TopologyGraph.removeComponent_wrap]
    · simp only [wrap, false_or]
      exact TopologyGraph.mem_edgeSet_removeComponent leaves enters held wrap
  have tracked : ∀ held, (left.1.track id left.2).trackedPair held =
      if held = (id, entry.1) then none else (manager.track id pairs).trackedPair held := by
    intro held
    simp only [trackedPair_track, left, dropDirection, lookup_erase_ite]
    by_cases mine : held.1 = id <;> simp [mine, Prod.ext_iff, trackedPair]
  refine ⟨⟨fun held pair found => ?_, fun held found => ?_, fun held ordinary found => ?_⟩, member⟩
  · rw [tracked] at found
    split at found
    · cases found
    · change (manager.graph.removeComponent _ _ id).graph.nodes[_]? = _ ∧
        (manager.graph.removeComponent _ _ id).graph.nodes[_]? = _
      rw [TopologyGraph.nodes_removeComponent]
      exact exact.placed held pair found
  · rw [tracked] at found
    split at found
    · cases found
    · rename_i differs
      exact (member held).mpr ⟨exact.tracked held found, .inr differs⟩
  · obtain ⟨old, either⟩ := (member held).mp found
    have differs : held ≠ (id, entry.1) := by
      rcases either with wrap | differs
      · exact fun same => ordinary (by rw [same, wrap])
      · exact differs
    rw [tracked, if_neg differs]
    exact exact.untracked held ordinary old

/-- Dropping tracked directions one after another. -/
theorem foldl_dropDirection_exact {stale : List (SwapDirection × NodeIndex × NodeIndex)}
    (distinct : (stale.map Prod.fst).Nodup)
    (listed : ∀ entry ∈ stale, pairs.lookup entry.1 = some entry.2) :
    let dropped := stale.foldl (dropDirection id) (manager, pairs)
    (dropped.1.track id dropped.2).Exact ∧
      dropped.1.componentPairs = manager.componentPairs ∧
      dropped.2 = (stale.map Prod.fst).foldl (fun map gone => map.erase gone) pairs ∧
      ∀ held, held ∈ dropped.1.edgeSet ↔ held ∈ manager.edgeSet ∧
        (id = nativeWrapComponent ∨ ¬ (held.1 = id ∧ held.2 ∈ stale.map Prod.fst)) := by
  induction stale generalizing manager pairs with
  | nil => exact ⟨exact, rfl, rfl, by simp⟩
  | cons entry rest ih =>
    obtain ⟨apart, distinct⟩ := nodup_cons.mp distinct
    obtain ⟨exact₁, member₁⟩ := dropDirection_exact exact (listed entry (by simp))
    obtain ⟨exact₂, maps, pairs₂, member₂⟩ := ih exact₁ distinct fun other member => by
      have differs : other.1 ≠ entry.1 := fun same => apart (mem_map.mpr ⟨other, member, same⟩)
      exact (AList.lookup_erase_ne differs).trans (listed other (mem_cons_of_mem _ member))
    refine ⟨exact₂, maps, pairs₂, fun held => ?_⟩
    refine (member₂ held).trans ?_
    rw [member₁, map_cons, mem_cons, Ne, Prod.ext_iff]
    tauto

/-- A pair for a direction of a component. -/
theorem Exact.addComponent {source target : NodeIndex} {direction : SwapDirection}
    (leaves : manager.graph.graph.nodes[source]? = some direction.1)
    (enters : manager.graph.graph.nodes[target]? = some direction.2) :
    (track { manager with graph := manager.graph.addComponent source target id } id
      (pairs.insert direction (source, target))).Exact := by
  have member : ∀ held, held ∈ (manager.graph.addComponent source target id).edgeSet ↔ _ :=
    fun held => TopologyGraph.mem_edgeSet_addComponent leaves enters held
  have nodes := (manager.graph.addComponent_spec id
    ⟨(List.getElem?_eq_some_iff.mp leaves).1, (List.getElem?_eq_some_iff.mp enters).1⟩).1
  have tracked : ∀ held, (track
      { manager with graph := manager.graph.addComponent source target id } id
      (pairs.insert direction (source, target))).trackedPair held =
      if held = (id, direction) then some (source, target)
      else (manager.track id pairs).trackedPair held := by
    intro held
    rw [trackedPair_track, trackedPair_track, lookup_insert_ite]
    by_cases mine : held.1 = id <;> simp [mine, Prod.ext_iff, trackedPair]
  refine ⟨fun held pair found => ?_, fun held found => ?_, fun held ordinary found => ?_⟩
  · change (manager.graph.addComponent _ _ id).graph.nodes[_]? = _ ∧
      (manager.graph.addComponent _ _ id).graph.nodes[_]? = _
    rw [nodes]
    rw [tracked] at found
    split at found
    · rename_i same
      subst same
      obtain rfl := Option.some.inj found
      exact ⟨leaves, enters⟩
    · exact exact.placed held pair found
  · rw [tracked] at found
    refine (member held).mpr ?_
    split at found
    · rename_i same
      exact .inr same
    · exact .inl (exact.tracked held found)
  · rw [tracked]
    split
    · rfl
    · rename_i differs
      exact exact.untracked held ordinary (((member held).mp found).resolve_right differs)

private theorem addDirection_exact (direction : SwapDirection) :
    let added := addDirection id (manager, pairs) direction
    (added.1.track id added.2).Exact ∧ ∀ held, held ∈ added.1.edgeSet ↔
      held ∈ manager.edgeSet ∨ held = (id, direction) := by
  by_cases has : (pairs.lookup direction).isSome = true
  · rw [show addDirection id (manager, pairs) direction = (manager, pairs) by
      simp only [addDirection, has, if_true]]
    refine ⟨exact, fun held => ⟨.inl, fun either => ?_⟩⟩
    rcases either with old | rfl
    · exact old
    · refine exact.tracked _ ?_
      rw [trackedPair_track, if_pos rfl]
      exact has
  · obtain ⟨leaves, -, same₁⟩ := manager.graph.addToken_spec direction.1
    obtain ⟨enters, kept, same₂⟩ := (manager.graph.addToken direction.1).2.addToken_spec direction.2
    have exact₂ : (track { manager with
        graph := ((manager.graph.addToken direction.1).2.addToken direction.2).2 } id
          pairs).Exact :=
      (exact.addToken direction.1).addToken direction.2
    simp only [addDirection, has, Bool.false_eq_true, if_false]
    refine ⟨exact₂.addComponent (kept _ _ leaves) enters, fun held => ?_⟩
    refine (TopologyGraph.mem_edgeSet_addComponent (kept _ _ leaves) enters held).trans ?_
    rw [same₂, same₁]
    rfl

end

private theorem foldl_addDirection_exact (id : ComponentId) (directions : List SwapDirection)
    (exact : (manager.track id pairs).Exact) :
    let added := directions.foldl (addDirection id) (manager, pairs)
    (added.1.track id added.2).Exact ∧ ∀ held, held ∈ added.1.edgeSet ↔
      held ∈ manager.edgeSet ∨ held.1 = id ∧ held.2 ∈ directions := by
  induction directions generalizing manager pairs with
  | nil => exact ⟨exact, by simp⟩
  | cons direction rest ih =>
    obtain ⟨exact₁, member₁⟩ := addDirection_exact exact direction
    obtain ⟨exact₂, member₂⟩ := ih exact₁
    refine ⟨exact₂, fun held => (member₂ held).trans ?_⟩
    rw [member₁, mem_cons, Prod.ext_iff]
    tauto

/-- The pairs of one component apart from the others are exact too. -/
theorem Exact.untrack (exact : manager.Exact) (id : ComponentId) :
    (track { manager with componentPairs := manager.componentPairs.erase id } id
      ((manager.componentPairs.lookup id).getD ∅)).Exact := by
  refine exact.congr rfl fun held => ?_
  rw [trackedPair_track]
  by_cases mine : held.1 = id
  · rw [if_pos mine, trackedPair, mine]
    cases manager.componentPairs.lookup id <;> rfl
  · rw [if_neg mine, trackedPair, AList.lookup_erase_ne mine, trackedPair]

/-- Syncing a component adds the listed directions and drops its other ones, unless it is the
wrap. -/
theorem syncComponentPairs_exact (exact : manager.Exact) (id : ComponentId)
    (directions : List SwapDirection) :
    (manager.syncComponentPairs id directions).Exact ∧
      ∀ held, held ∈ (manager.syncComponentPairs id directions).edgeSet ↔
        if held.1 = id then
          held.2 ∈ directions ∨ id = nativeWrapComponent ∧ held ∈ manager.edgeSet
        else held ∈ manager.edgeSet := by
  obtain ⟨dropped, -, -, member⟩ := foldl_dropDirection_exact (exact.untrack id)
    (nodup_staleDirections _ directions) fun entry stale => (mem_staleDirections.mp stale).1
  obtain ⟨added, member'⟩ := foldl_addDirection_exact id directions dropped
  refine ⟨added, fun held => (member' held).trans ?_⟩
  rw [member]
  change (held ∈ manager.edgeSet ∧ _) ∨ _ ↔ _
  by_cases mine : held.1 = id
  · simp only [mine, true_and, if_true]
    constructor
    · intro either
      rcases either with ⟨old, wrap | stays⟩ | listed
      · exact .inr ⟨wrap, old⟩
      · by_cases wrap : id = nativeWrapComponent
        · exact .inr ⟨wrap, old⟩
        · left
          by_contra unlisted
          obtain ⟨pair, tracked⟩ :=
            Option.isSome_iff_exists.mp (exact.untracked held (mine ▸ wrap) old)
          refine stays (mem_map.mpr ⟨(held.2, pair), ?_, rfl⟩)
          refine mem_staleDirections.mpr ⟨?_, unlisted⟩
          rw [trackedPair, mine] at tracked
          cases known : manager.componentPairs.lookup id with
          | none => simp [known] at tracked
          | some pairs => simpa [known] using tracked
      · exact .inl listed
    · intro either
      rcases either with listed | ⟨wrap, old⟩
      · exact .inr listed
      · exact .inl ⟨old, .inl wrap⟩
  · simp [mine]

theorem foldl_addToken_exact (tokens : List Address) (exact : manager.Exact) :
    Exact { manager with
        graph := tokens.foldl (fun graph token => (graph.addToken token).2) manager.graph } ∧
      ∀ held, held ∈ (tokens.foldl (fun graph token => (graph.addToken token).2)
        manager.graph).edgeSet ↔ held ∈ manager.edgeSet := by
  induction tokens generalizing manager with
  | nil => exact ⟨exact, fun _ => Iff.rfl⟩
  | cons token rest ih =>
    obtain ⟨-, -, same⟩ := manager.graph.addToken_spec token
    obtain ⟨exact₁, same₁⟩ := ih (exact.addToken token)
    exact ⟨exact₁, fun held => (same₁ held).trans (same held)⟩

/-- **Adding a component.** One with two tokens or more gets the listed directions, the wrap
besides those it had; any other changes nothing. -/
theorem addComponent_exact (exact : manager.Exact) (component : Listing) :
    (manager.addComponent component).Exact ∧
      ∀ held, held ∈ (manager.addComponent component).edgeSet ↔
        if held.1 = component.1 ∧ 2 ≤ component.2.tokens.length then
          held.2 ∈ component.2.swapDirections ∨
            component.1 = nativeWrapComponent ∧ held ∈ manager.edgeSet
        else held ∈ manager.edgeSet := by
  unfold addComponent
  split
  · rename_i few
    exact ⟨exact, fun held => by rw [if_neg (by omega)]⟩
  · rename_i enough
    obtain ⟨withTokens, same⟩ := foldl_addToken_exact
      (component.2.tokens.insertionSort (· ≤ ·)) exact
    obtain ⟨synced, member⟩ :=
      syncComponentPairs_exact withTokens component.1 component.2.swapDirections
    refine ⟨synced, fun held => (member held).trans ?_⟩
    simp only [Nat.not_lt.mp enough, and_true]
    change (if _ then _ ∨ _ ∧ held ∈ TopologyGraph.edgeSet _
      else held ∈ TopologyGraph.edgeSet _) ↔ _
    rw [same]

private theorem foldl_dropDirection_fst (id : ComponentId)
    (stale : List (SwapDirection × NodeIndex × NodeIndex)) (manager : TopologyGraphManager D)
    (pairs : TrackedPairs) :
    (stale.foldl (dropDirection id) (manager, pairs)).1 = { manager with
      graph := stale.foldl (fun graph entry => graph.removeComponent entry.2.1 entry.2.2 id)
        manager.graph } := by
  induction stale generalizing manager pairs with
  | nil => rfl
  | cons entry rest ih =>
    rw [foldl_cons, dropDirection, ih]
    rfl

/-- **Removing a component.** Its directions go, unless it is the wrap; the others stay. -/
theorem removeComponentPairs_exact (exact : manager.Exact) (id : ComponentId) :
    (manager.removeComponentPairs id).1.Exact ∧
      ∀ held, held ∈ (manager.removeComponentPairs id).1.edgeSet ↔
        held ∈ manager.edgeSet ∧ (id = nativeWrapComponent ∨ held.1 ≠ id) := by
  have untracked : ∀ held ∈ manager.edgeSet, id ≠ nativeWrapComponent → held.1 = id →
      (manager.trackedPair held).isSome = true :=
    fun held member ordinary mine => exact.untracked held (mine ▸ ordinary) member
  cases known : manager.componentPairs.lookup id with
  | none =>
    simp only [removeComponentPairs, known]
    refine ⟨exact, fun held => ⟨fun member => ⟨member, ?_⟩, And.left⟩⟩
    by_contra neither
    obtain ⟨ordinary, mine⟩ := not_or.mp neither
    have tracked := untracked held member ordinary (not_not.mp mine)
    rw [trackedPair, not_not.mp mine, known] at tracked
    cases tracked
  | some pairs =>
    let entries := pairs.entries.map fun entry => (entry.1, entry.2)
    have fst : entries.map Prod.fst = pairs.keys := map_map
    have opened := exact.untrack id
    rw [known, Option.getD_some] at opened
    have distinct : (entries.map Prod.fst).Nodup := by
      rw [fst]
      exact pairs.nodupKeys
    obtain ⟨dropped, -, erased, member⟩ := foldl_dropDirection_exact opened distinct
      fun entry listed => (mem_entries_iff pairs entry.1 entry.2).mp listed
    rw [foldl_dropDirection_fst] at dropped member
    have removed : (manager.removeComponentPairs id).1 = { manager with
        graph := entries.foldl (fun graph entry =>
          graph.removeComponent entry.2.1 entry.2.2 id) manager.graph
        componentPairs := manager.componentPairs.erase id } := by
      simp only [removeComponentPairs, known, entries, foldl_map]
    rw [removed]
    refine ⟨dropped.forget (fun direction => ?_) (AList.lookup_erase _ _),
      fun held => (member held).trans (and_congr_right fun present =>
        or_congr_right' fun ordinary => not_congr ⟨And.left, fun mine => ⟨mine, ?_⟩⟩)⟩
    · rw [erased, lookup_foldl_erase, fst]
      split
      · rfl
      · rename_i absent
        exact AList.lookup_eq_none.mpr fun present => absent (AList.mem_keys.mp present)
    · have tracked := untracked held present ordinary mine
      rw [trackedPair, mine, known] at tracked
      rw [fst]
      exact AList.mem_keys.mp (AList.lookup_isSome.mp tracked)

end TopologyGraphManager

end Fynd
