import Fynd.Graph.Petgraph
import Fynd.Types.Route

/-!
# The graph with one edge per token pair

The pools that trade a directed token pair are the weight of its edge, and an index
finds the edge of a pair. The native wrap converts between two tokens at no cost;
its pair is never counted as a trade. `TopologyGraphManager` builds the graph and
keeps it up to date the way `PetgraphStableDiGraphManager` does its own.
-/

namespace Fynd

open Foundation List

/-- The market key of the injected native wrapper component, which the simulation library
fixes. -/
class NativeWrap where
  nativeWrapComponent : ComponentId

export NativeWrap (nativeWrapComponent)

/-- A wrapper id for sample graphs. -/
abbrev sampleWrap : NativeWrap := ⟨"wrap"⟩

variable {D : Type}

/-- The pools that trade one directed token pair, in the order they were added. No component
serves the pair twice. -/
structure PairEdge (D : Type) where
  pools : List (EdgeData D)
  once : (pools.map EdgeData.componentId).Nodup
  deriving DecidableEq

namespace PairEdge

/-- A pair traded by one component. -/
def single (componentId : ComponentId) : PairEdge D := ⟨[.new componentId], by simp⟩

/-- Adds a pool unless its component already serves the pair. -/
def insert (pair : PairEdge D) (componentId : ComponentId) : PairEdge D :=
  if serves : componentId ∈ pair.pools.map EdgeData.componentId then pair
  else ⟨pair.pools ++ [.new componentId], by
    rw [map_append, nodup_append]
    refine ⟨pair.once, by simp, ?_⟩
    intro id member other new
    obtain rfl : other = componentId := by simpa [EdgeData.new] using new
    exact fun same => serves (same ▸ member)⟩

/-- Drops a pool. -/
def remove (pair : PairEdge D) (componentId : ComponentId) : PairEdge D :=
  ⟨pair.pools.filter fun pool => pool.componentId ≠ componentId,
    pair.once.sublist (filter_sublist.map _)⟩

private theorem insert_pools_ne_nil (pair : PairEdge D) (componentId : ComponentId) :
    (pair.insert componentId).pools ≠ [] := by
  unfold insert
  split
  · rename_i serves
    exact fun none => by simp [none] at serves
  · simp

end PairEdge

/-- Tokens as nodes, one edge per directed token pair. -/
abbrev TokenGraph (D : Type) := StableDiGraph Address (PairEdge D)

/-- A token graph with the node of each token, the edge of each directed pair, and the two
tokens the native wrap converts between, lower index first. Both indexes are exact, and every
edge has a pool. -/
structure TopologyGraph (D : Type) where
  graph : TokenGraph D
  tokens : Map Address NodeIndex
  pairIndex : Map (NodeIndex × NodeIndex) Nat
  wrapEnds : Option (NodeIndex × NodeIndex)
  tokens_exact : ∀ address node,
    tokens.lookup address = some node ↔ graph.nodes[node]? = some address
  pairs_exact : ∀ pair index, pairIndex.lookup pair = some index ↔
    ∃ edge ∈ graph.edges, (edge.source, edge.target) = pair ∧ edge.index = index
  traded : ∀ edge ∈ graph.edges, edge.weight.pools ≠ []

namespace TopologyGraph

def empty : TopologyGraph D where
  graph := .empty
  tokens := ∅
  pairIndex := ∅
  wrapEnds := none
  tokens_exact := by simp [StableDiGraph.empty]
  pairs_exact := by simp [StableDiGraph.empty]
  traded := by simp [StableDiGraph.empty]

section

variable (graph : TopologyGraph D)

/-- Whether the two tokens are the ones the native wrap converts between. -/
def isWrapPair (source target : NodeIndex) : Bool :=
  graph.wrapEnds = some (min source target, max source target)

/-- The other end of the native wrap. -/
def wrapTwin (token : NodeIndex) : Option NodeIndex :=
  match graph.wrapEnds with
  | none => none
  | some (first, second) =>
    if token = first then some second else if token = second then some first else none

/-- The node holding a token. -/
def getTokenIx (token : Address) : Option NodeIndex :=
  graph.tokens.lookup token

/-- The edge between two tokens. -/
def getEdgeIx (source target : NodeIndex) : Option Nat :=
  graph.pairIndex.lookup (source, target)

end

section

variable {graph : TopologyGraph D}

/-- Two nodes have one edge in each direction. -/
theorem edge_unique {first second : StableEdge (PairEdge D)} (here : first ∈ graph.graph.edges)
    (there : second ∈ graph.graph.edges) (source : first.source = second.source)
    (target : first.target = second.target) : first = second := by
  have listed := (graph.pairs_exact _ _).mpr ⟨first, here, rfl, rfl⟩
  have listed' := (graph.pairs_exact _ _).mpr ⟨second, there, rfl, rfl⟩
  rw [source, target, listed'] at listed
  exact StableDiGraph.eq_of_index_eq here there (Option.some.inj listed).symm

theorem getEdgeIx_eq_some {source target : NodeIndex} {index : Nat} :
    graph.getEdgeIx source target = some index ↔
      ∃ edge ∈ graph.graph.edges, edge.source = source ∧ edge.target = target ∧
        edge.index = index := by
  rw [getEdgeIx, graph.pairs_exact]
  simp only [Prod.mk.injEq, and_assoc]

end

section

variable (graph : TopologyGraph D)

/-- Adds a token the graph does not hold. -/
def newToken (address : Address)
    (unknown : graph.getTokenIx address = none) : NodeIndex × TopologyGraph D :=
  ((graph.graph.addNode address).1,
    { graph with
      graph := (graph.graph.addNode address).2
      tokens := graph.tokens.insert address (graph.graph.addNode address).1
      tokens_exact := by
        intro other node
        rw [StableDiGraph.getElem?_addNode, ← graph.tokens_exact]
        by_cases same : other = address
        · subst same
          rw [AList.lookup_insert, show graph.tokens.lookup other = none from unknown]
          simp [StableDiGraph.addNode, eq_comm]
        · simp [AList.lookup_insert_ne same, same]
      pairs_exact := graph.pairs_exact
      traded := graph.traded })

/-- The node of a token, added if there is none. -/
def addToken (address : Address) : NodeIndex × TopologyGraph D :=
  match known : graph.getTokenIx address with
  | some index => (index, graph)
  | none => graph.newToken address known

/-- The tokens one outgoing edge away. -/
def neighbors (token : NodeIndex) : List NodeIndex :=
  (graph.graph.outgoing token).map StableEdge.target

/-- The pools of a pair as the graph stores them. -/
def storedPools (source target : NodeIndex) : List (EdgeData D) :=
  match (graph.getEdgeIx source target).bind graph.graph.edge? with
  | some edge => edge.weight.pools
  | none => []

/-- Changes the pools of one edge and leaves it some. -/
def modifyPair (edge : Nat) (change : PairEdge D → PairEdge D)
    (traded : ∀ pair ∈ (graph.graph.modifyEdge edge change).edges, pair.weight.pools ≠ []) :
    TopologyGraph D :=
  { graph with
    graph := graph.graph.modifyEdge edge change
    tokens_exact := graph.tokens_exact
    pairs_exact := by
      intro pair index
      rw [graph.pairs_exact]
      simp only [StableDiGraph.mem_modifyEdge, exists_exists_and_eq_and,
        StableEdge.modify_source, StableEdge.modify_target, StableEdge.modify_index]
    traded := traded }

/-- Adds the edge of a pair that had none. -/
def newPair (source target : NodeIndex) (weight : PairEdge D)
    (inside : source < graph.graph.nodes.length ∧ target < graph.graph.nodes.length)
    (apart : graph.getEdgeIx source target = none) (nonempty : weight.pools ≠ []) :
    TopologyGraph D :=
  { graph with
    graph := (graph.graph.addEdge source target weight).2
    pairIndex := graph.pairIndex.insert (source, target)
      (graph.graph.addEdge source target weight).1
    tokens_exact := by
      rw [(StableDiGraph.addEdge_of_inside weight inside).2.2]
      exact graph.tokens_exact
    pairs_exact := by
      obtain ⟨index_eq, edges_eq, -⟩ := StableDiGraph.addEdge_of_inside weight inside
      intro pair index
      rw [index_eq, edges_eq, exists_mem_cons_iff]
      by_cases same : pair = (source, target)
      · subst same
        rw [AList.lookup_insert, Option.some.injEq]
        refine ⟨fun new => .inl ⟨rfl, new⟩, fun found => ?_⟩
        rcases found with ⟨-, new⟩ | old
        · exact new
        · have listed := (graph.pairs_exact _ _).mpr old
          rw [getEdgeIx] at apart
          rw [apart] at listed
          cases listed
      · rw [AList.lookup_insert_ne same, graph.pairs_exact]
        refine ⟨.inr, fun found => ?_⟩
        rcases found with ⟨new, -⟩ | old
        · exact absurd new.symm same
        · exact old
    traded := by
      obtain ⟨-, edges_eq, -⟩ := StableDiGraph.addEdge_of_inside weight inside
      intro edge member
      rw [edges_eq] at member
      rcases mem_cons.mp member with rfl | old
      · exact nonempty
      · exact graph.traded edge old }

/-- Drops the edge of a pair. -/
def dropPair (source target : NodeIndex) (index : Nat)
    (found : graph.getEdgeIx source target = some index) : TopologyGraph D :=
  { graph with
    graph := graph.graph.removeEdge index
    pairIndex := graph.pairIndex.erase (source, target)
    tokens_exact := by
      rw [StableDiGraph.nodes_removeEdge]
      exact graph.tokens_exact
    pairs_exact := by
      obtain ⟨dropped, inGraph, ends, named⟩ := (graph.pairs_exact _ _).mp found
      intro pair other
      by_cases same : pair = (source, target)
      · subst same
        rw [AList.lookup_erase]
        refine ⟨fun none => (by cases none), fun ⟨edge, member, joins, _⟩ => ?_⟩
        obtain ⟨old, differs⟩ := StableDiGraph.mem_removeEdge.mp member
        have listed := (graph.pairs_exact (source, target) edge.index).mpr ⟨edge, old, joins, rfl⟩
        rw [getEdgeIx] at found
        rw [found] at listed
        exact absurd (Option.some.inj listed).symm differs
      · rw [AList.lookup_erase_ne same, graph.pairs_exact]
        refine ⟨fun ⟨edge, old, joins, is⟩ => ⟨edge, ?_, joins, is⟩,
          fun ⟨edge, member, rest⟩ => ⟨edge, (StableDiGraph.mem_removeEdge.mp member).1, rest⟩⟩
        refine StableDiGraph.mem_removeEdge.mpr ⟨old, fun at_index => same ?_⟩
        rw [← joins, ← ends, StableDiGraph.eq_of_index_eq old inGraph (at_index.trans named.symm)]
    traded := fun edge member => graph.traded edge (StableDiGraph.mem_removeEdge.mp member).1 }

end

section NativeWrap

variable [NativeWrap]

section

variable (graph : TopologyGraph D) (source target : NodeIndex)

/-- The pools trading one token for another. On the native wrap pair that is only the wrap. -/
def poolsBetween : List (EdgeData D) :=
  let pools := graph.storedPools source target
  if !graph.isWrapPair source target then pools
  else
    match pools.find? fun pool => pool.componentId = nativeWrapComponent with
    | some wrap => [wrap]
    | none => pools

/-- Whether an allowed pool other than the native wrap trades the pair; never on the wrap pair. -/
def pairHasAllowedTrade (constraints : ResolvedRouteConstraints) : Bool :=
  if graph.isWrapPair source target then false
  else
    let pools := graph.poolsBetween source target
    if constraints.isEmpty then !pools.isEmpty
    else pools.any fun pool => !constraints.excludesPool pool.componentId

/-- Whether the native wrap converts the pair and the request allows it. -/
def pairHasAllowedWrap (constraints : ResolvedRouteConstraints) : Bool :=
  graph.isWrapPair source target && !constraints.excludesPool nativeWrapComponent

/-- Notes the pair of the native wrap. -/
def markWrap (componentId : ComponentId) : TopologyGraph D :=
  if componentId = nativeWrapComponent then
    { graph with wrapEnds := some (min source target, max source target) }
  else graph

/-- Records that a component trades a pair, with a new edge if it is the first to do so. Both
tokens must be in the graph. -/
def addComponent (componentId : ComponentId) : TopologyGraph D :=
  let marked := graph.markWrap source target componentId
  match apart : marked.getEdgeIx source target with
  | some edge =>
    marked.modifyPair edge (fun pair => pair.insert componentId) fun pair member => by
      obtain ⟨old, inGraph, rfl⟩ := StableDiGraph.mem_modifyEdge.mp member
      unfold StableEdge.modify
      split
      · exact PairEdge.insert_pools_ne_nil _ _
      · exact marked.traded old inGraph
  | none =>
    if inside : source < marked.graph.nodes.length ∧ target < marked.graph.nodes.length then
      marked.newPair source target (.single componentId) inside apart (by simp [PairEdge.single])
    else marked

/-- Records that a component no longer trades a pair, without its edge if it was the last to do
so. The native wrap stays. -/
def removeComponent (componentId : ComponentId) : TopologyGraph D :=
  if componentId = nativeWrapComponent then graph
  else
    match found : graph.getEdgeIx source target with
    | none => graph
    | some index =>
      let trimmed := graph.graph.modifyEdge index fun pair => pair.remove componentId
      if stillTraded : (trimmed.edge? index).any fun pair => !pair.weight.pools.isEmpty then
        graph.modifyPair index (fun pair => pair.remove componentId) fun pair member => by
          by_cases same : pair.index = index
          · rw [StableDiGraph.edge?_eq_some.mpr ⟨member, same⟩] at stillTraded
            simpa using stillTraded
          · obtain ⟨old, inGraph, rfl⟩ := StableDiGraph.mem_modifyEdge.mp member
            rw [StableEdge.modify_index] at same
            rw [StableEdge.modify, if_neg same]
            exact graph.traded old inGraph
      else graph.dropPair source target index found

end

end NativeWrap

end TopologyGraph

/-- The pair of nodes of each direction. -/
abbrev TrackedPairs := Map SwapDirection (NodeIndex × NodeIndex)

/-- The graph and, for each tracked component, the token pair of each of its directions. -/
structure TopologyGraphManager (D : Type) where
  graph : TopologyGraph D
  componentPairs : Map ComponentId TrackedPairs

namespace TopologyGraphManager

variable [NativeWrap]

omit [NativeWrap] in
/-- Without any token. -/
def new : TopologyGraphManager D := ⟨.empty, ∅⟩

/-- Drops one direction. -/
def dropDirection (componentId : ComponentId) (state : TopologyGraphManager D × TrackedPairs)
    (entry : SwapDirection × NodeIndex × NodeIndex) : TopologyGraphManager D × TrackedPairs :=
  ({ state.1 with graph := state.1.graph.removeComponent entry.2.1 entry.2.2 componentId },
    state.2.erase entry.1)

/-- Adds one direction, unless the component has it. -/
def addDirection (componentId : ComponentId) (state : TopologyGraphManager D × TrackedPairs)
    (direction : SwapDirection) : TopologyGraphManager D × TrackedPairs :=
  if (state.2.lookup direction).isSome then state
  else
    let (source, withSource) := state.1.graph.addToken direction.1
    let (target, withTarget) := withSource.addToken direction.2
    ({ state.1 with graph := withTarget.addComponent source target componentId },
      state.2.insert direction (source, target))

section

variable (manager : TopologyGraphManager D)

/-- Makes the pairs of a component match its directions, one pair each. -/
def syncComponentPairs (componentId : ComponentId)
    (swapDirections : List SwapDirection) : TopologyGraphManager D :=
  let pairs := (manager.componentPairs.lookup componentId).getD ∅
  let untracked := { manager with componentPairs := manager.componentPairs.erase componentId }
  let trimmed := (staleDirections pairs swapDirections).foldl (dropDirection componentId)
    (untracked, pairs)
  let synced := swapDirections.foldl (addDirection componentId) trimmed
  { synced.1 with componentPairs := synced.1.componentPairs.insert componentId synced.2 }

/-- Drops the pairs of a component and stops tracking it; the flag says whether it was tracked. -/
def removeComponentPairs (componentId : ComponentId) : TopologyGraphManager D × Bool :=
  match manager.componentPairs.lookup componentId with
  | none => (manager, false)
  | some pairs =>
    ({ manager with
      graph := pairs.entries.foldl (fun graph entry =>
        graph.removeComponent entry.2.1 entry.2.2 componentId) manager.graph
      componentPairs := manager.componentPairs.erase componentId }, true)

/-- Adds one component; one with fewer than two tokens is refused and left as it was. -/
def addComponent (component : Listing) : TopologyGraphManager D :=
  if component.2.tokens.length < 2 then manager
  else
    let withTokens := (component.2.tokens.insertionSort (· ≤ ·)).foldl
      (fun graph token => (graph.addToken token).2) manager.graph
    { manager with graph := withTokens }.syncComponentPairs component.1
      component.2.swapDirections

/-- Adds components in the order of their ids; the error names those refused. -/
def addComponents (components : MarketTopology) : TopologyGraphManager D × Except GraphError Unit :=
  addInOrder manager addComponent components

/-- Removes components; the error names those that were not tracked. -/
def removeComponents (ids : List ComponentId) : TopologyGraphManager D × Except GraphError Unit :=
  removeEach manager removeComponentPairs ids

end

omit [NativeWrap] in
/-- A graph with the tokens of a topology and no edge. -/
def withTokens (components : MarketTopology) : TopologyGraphManager D :=
  { graph := (uniqueTokens components).foldl (fun graph token => (graph.addToken token).2) .empty
    componentPairs := ∅ }

/-- Builds the graph of a topology. -/
def initializeGraph (components : MarketTopology) : TopologyGraphManager D :=
  ((withTokens components).addComponents components).1

/-- Adds, then removes, what an event lists, and collects the errors. -/
def handleEvent (manager : TopologyGraphManager D) (event : MarketEvent) :
    TopologyGraphManager D × Except (List GraphError) Unit :=
  addThenRemove manager addComponents removeComponents event

end TopologyGraphManager

end Fynd
