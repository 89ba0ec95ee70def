import Fynd.Foundation.StableDiGraph
import Fynd.Types.Market

/-!
# The graph with one edge per pool and swap direction

`PetgraphStableDiGraphManager` builds the graph from a topology and keeps it up to
date as market events add and remove components. A component that is listed again
loses the edges of the directions it dropped and gains the new ones.
-/

namespace Fynd

open Foundation

/-- What an edge carries: its component and data of the algorithm. -/
structure EdgeData (D : Type) where
  componentId : ComponentId
  data : Option D
  deriving DecidableEq, Repr

/-- An edge without data. -/
def EdgeData.new {D : Type} (componentId : ComponentId) : EdgeData D := ⟨componentId, none⟩

/-- A graph of tokens whose edges are the swap directions of components. -/
abbrev TokenDiGraph (D : Type) := StableDiGraph Address (EdgeData D)

/-- An edge of such a graph. -/
abbrev PoolEdge (D : Type) := StableEdge (EdgeData D)

variable {D : Type}

/-- The token of a node. -/
def tokenOf {E : Type} (graph : StableDiGraph Address E) (node : NodeIndex) : Address :=
  graph.nodes.getD node 0

/-- What a graph operation fails with. -/
inductive GraphError
  | tokenNotFound (token : Address)
  | componentsNotFound (ids : List ComponentId)
  | invalidComponents (ids : List ComponentId)
  deriving DecidableEq, Repr

/-- Components in the order of their ids. -/
def sortedComponents (components : MarketTopology) : List Listing :=
  (components.entries.map fun entry => (entry.1, entry.2)).insertionSort
    fun left right => left.1 ≤ right.1

/-- The tokens of a topology, each once, in order. -/
def uniqueTokens (components : MarketTopology) : List Address :=
  (components.entries.flatMap fun entry => entry.2.tokens).dedup.insertionSort (· ≤ ·)

/-- The directions tracked for a component that it no longer lists. -/
def staleDirections {V : Type} (tracked : Map SwapDirection V) (wanted : List SwapDirection) :
    List (SwapDirection × V) :=
  (tracked.entries.map fun entry => (entry.1, entry.2)).filter fun entry => entry.1 ∉ wanted

section Managers

variable {M : Type} (manager : M)

/-- Adds components in the order of their ids; the error names those refused. -/
def addInOrder (addComponent : M → Listing → M)
    (components : MarketTopology) : M × Except GraphError Unit :=
  let invalid := (sortedComponents components).filter fun component => component.2.tokens.length < 2
  ((sortedComponents components).foldl addComponent manager,
    if invalid.isEmpty then .ok () else .error (.invalidComponents (invalid.map Prod.fst)))

/-- Removes components; the error names those that were not tracked. -/
def removeEach (removeComponent : M → ComponentId → M × Bool) (ids : List ComponentId) :
    M × Except GraphError Unit :=
  let (removed, missing) := ids.foldl (fun state id =>
    let (manager, tracked) := removeComponent state.1 id
    (manager, if tracked then state.2 else state.2 ++ [id])) (manager, [])
  (removed, if missing.isEmpty then .ok () else .error (.componentsNotFound missing))

/-- Adds, then removes, what an event lists, and collects the errors. -/
def addThenRemove (addComponents : M → MarketTopology → M × Except GraphError Unit)
    (removeComponents : M → List ComponentId → M × Except GraphError Unit) (event : MarketEvent) :
    M × Except (List GraphError) Unit :=
  let (added, first) := addComponents manager event.addedComponents
  let (removed, second) := removeComponents added event.removedComponents
  let errors := [first, second].filterMap fun outcome =>
    match outcome with
    | .error error => some error
    | .ok _ => none
  (removed, if errors.isEmpty then .ok () else .error errors)

end Managers

/-- The graph, the edge of each direction of each tracked component, and the node of each
token. A component is tracked when it has an entry, even without an edge. -/
structure PetgraphStableDiGraphManager (D : Type) where
  graph : TokenDiGraph D
  edgeMap : Map ComponentId (Map SwapDirection Nat)
  nodeMap : Map Address NodeIndex

namespace PetgraphStableDiGraphManager

def new : PetgraphStableDiGraphManager D := ⟨.empty, ∅, ∅⟩

section

variable (manager : PetgraphStableDiGraphManager D)

/-- The node of a token. -/
def findNode (token : Address) : Except GraphError NodeIndex :=
  match manager.nodeMap.lookup token with
  | some node => .ok node
  | none => .error (.tokenNotFound token)

/-- The node of a token, created if there is none. -/
def getOrCreateNode (token : Address) : NodeIndex × PetgraphStableDiGraphManager D :=
  match manager.findNode token with
  | .ok node => (node, manager)
  | .error _ =>
    let (node, graph) := manager.graph.addNode token
    (node, { manager with graph := graph, nodeMap := manager.nodeMap.insert token node })

/-- Drops the edge of one direction. -/
def dropDirection (edges : Map SwapDirection Nat)
    (entry : SwapDirection × Nat) : PetgraphStableDiGraphManager D × Map SwapDirection Nat :=
  ({ manager with graph := manager.graph.removeEdge entry.2 }, edges.erase entry.1)

end

/-- Adds the edge of one direction, unless the component has it. -/
def addDirection (componentId : ComponentId)
    (state : PetgraphStableDiGraphManager D × Map SwapDirection Nat) (direction : SwapDirection) :
    PetgraphStableDiGraphManager D × Map SwapDirection Nat :=
  if (state.2.lookup direction).isSome then state
  else
    let (source, withSource) := state.1.getOrCreateNode direction.1
    let (target, withTarget) := withSource.getOrCreateNode direction.2
    let (edge, graph) := withTarget.graph.addEdge source target (EdgeData.new componentId)
    ({ withTarget with graph := graph }, state.2.insert direction edge)

section

variable (manager : PetgraphStableDiGraphManager D)

/-- Makes the edges of a component match its directions, one edge each. -/
def syncComponentEdges (componentId : ComponentId)
    (swapDirections : List SwapDirection) : PetgraphStableDiGraphManager D :=
  let edges := (manager.edgeMap.lookup componentId).getD ∅
  let untracked := { manager with edgeMap := manager.edgeMap.erase componentId }
  let trimmed := (staleDirections edges swapDirections).foldl
    (fun state entry => dropDirection state.1 state.2 entry) (untracked, edges)
  let synced := swapDirections.foldl (addDirection componentId) trimmed
  { synced.1 with edgeMap := synced.1.edgeMap.insert componentId synced.2 }

/-- Drops the edges of a component and stops tracking it; the flag says whether it was tracked. -/
def removeComponentEdges (componentId : ComponentId) : PetgraphStableDiGraphManager D × Bool :=
  match manager.edgeMap.lookup componentId with
  | none => (manager, false)
  | some edges =>
    ({ manager with
      graph := edges.entries.foldl (fun graph entry => graph.removeEdge entry.2) manager.graph
      edgeMap := manager.edgeMap.erase componentId }, true)

/-- Adds one component; one with fewer than two tokens is refused and left as it was. -/
def addComponent (component : Listing) : PetgraphStableDiGraphManager D :=
  if component.2.tokens.length < 2 then manager
  else
    let withTokens := (component.2.tokens.insertionSort (· ≤ ·)).foldl
      (fun manager token => (manager.getOrCreateNode token).2) manager
    withTokens.syncComponentEdges component.1 component.2.swapDirections

/-- Adds components in the order of their ids; the error names those refused. -/
def addComponents (components : MarketTopology) :
    PetgraphStableDiGraphManager D × Except GraphError Unit :=
  addInOrder manager addComponent components

/-- Removes components; the error names those that were not tracked. -/
def removeComponents (ids : List ComponentId) :
    PetgraphStableDiGraphManager D × Except GraphError Unit :=
  removeEach manager removeComponentEdges ids

end

/-- A graph with the tokens of a topology and no edge. -/
def withTokens (components : MarketTopology) : PetgraphStableDiGraphManager D :=
  (uniqueTokens components).foldl (fun manager token =>
    let (node, graph) := manager.graph.addNode token
    { manager with graph := graph, nodeMap := manager.nodeMap.insert token node }) new

/-- Builds the graph of a topology. -/
def initializeGraph (components : MarketTopology) : PetgraphStableDiGraphManager D :=
  ((withTokens components).addComponents components).1

/-- Adds, then removes, what an event lists, and collects the errors. -/
def handleEvent (manager : PetgraphStableDiGraphManager D) (event : MarketEvent) :
    PetgraphStableDiGraphManager D × Except (List GraphError) Unit :=
  addThenRemove manager addComponents removeComponents event

end PetgraphStableDiGraphManager

end Fynd
