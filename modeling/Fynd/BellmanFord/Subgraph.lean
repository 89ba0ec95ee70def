import Fynd.BellmanFord.Context
import Fynd.Graph.Petgraph

/-!
# The subgraph a solve runs on

Two bounded walks prune the market graph. `getHopsToReach` counts the hops between
the destination and every token near it, along the edges that leave each token; from
the source token, `getSubgraphWithHopMap` then keeps the edges whose depth and hop
count fit in the budget. `buildContext` takes the snapshot of what is left.
-/

namespace Fynd

open Foundation List

variable {P D : Type}

section Walks

variable (graph : TokenDiGraph D) (constraints : ResolvedRouteConstraints)

/-- Whether an edge may be taken: its pool is not excluded and its target is an endpoint or a
token the request does not exclude. -/
def canCross (edge : PoolEdge D) (endpoints : NodeIndex × NodeIndex) : Bool :=
  !constraints.excludesPool edge.weight.componentId &&
    constraints.allowsToken (tokenOf graph edge.target)
      (tokenOf graph endpoints.1, tokenOf graph endpoints.2)

/-- One edge of a level: a node not yet counted is counted and joins the next frontier. -/
def countEdge (endpoints : NodeIndex × NodeIndex) (depth : Nat)
    (level : Map NodeIndex Nat × List NodeIndex) (edge : PoolEdge D) :
    Map NodeIndex Nat × List NodeIndex :=
  if (level.1.lookup edge.target).isSome || !canCross graph constraints edge endpoints then level
  else (level.1.insert edge.target depth, level.2 ++ [edge.target])

/-- The levels left to count. -/
def countLevels (endpoints : NodeIndex × NodeIndex) :
    Nat → Nat → Map NodeIndex Nat → List NodeIndex → Map NodeIndex Nat
  | 0, _, hopsToReach, _ => hopsToReach
  | levels + 1, depth, hopsToReach, frontier =>
    let level := frontier.foldl (fun level node =>
      (graph.outgoing node).foldl (countEdge graph constraints endpoints depth) level)
      (hopsToReach, [])
    countLevels endpoints levels (depth + 1) level.1 level.2

/-- Every node within `maxHops` of a source and the fewest hops to it, along outgoing edges. -/
def getHopsToReachAny (sources : List NodeIndex) (endpoints : NodeIndex × NodeIndex)
    (maxHops : Nat) : Map NodeIndex Nat :=
  countLevels graph constraints endpoints maxHops 1
    (sources.foldl (fun counted source => counted.insert source 0) ∅) sources

/-- The hops between the destination and every node within `maxHops` of it. -/
def getHopsToReach (tokenIn tokenOut : NodeIndex) (maxHops : Nat) : Map NodeIndex Nat :=
  getHopsToReachAny graph constraints [tokenOut] (tokenIn, tokenOut) maxHops

/-- The part of the graph a solve may route through. -/
structure Subgraph where
  adjacency : Map NodeIndex (List (NodeIndex × ComponentId))
  tokenNodes : List NodeIndex
  componentIds : List ComponentId

/-- A walk in progress: what it has kept, the nodes it has seen and those waiting, with the
depth at which each was seen. -/
structure SubgraphWalk where
  kept : Subgraph
  visited : List NodeIndex
  queue : List (NodeIndex × Nat)

variable (endpoints : NodeIndex × Option NodeIndex) (hopsToTokenOut : Option (Map NodeIndex Nat))
  (maxHops : Nat)

/-- Whether the hops left after an edge reach the destination. Without a map nothing is pruned. -/
def withinBudget (depth : Nat) (next : NodeIndex) : Bool :=
  match hopsToTokenOut with
  | none => true
  | some hops =>
    match hops.lookup next with
    | none => false
    | some hopsLeft => depth + 1 + hopsLeft ≤ maxHops

/-- One edge of the walk: kept when it may be crossed and fits the budget; its target waits when
it is seen for the first time. -/
def keepEdge (node : NodeIndex) (depth : Nat) (walk : SubgraphWalk) (edge : PoolEdge D) :
    SubgraphWalk :=
  if !canCross graph constraints edge (endpoints.1, endpoints.2.getD endpoints.1) then walk
  else if !withinBudget hopsToTokenOut maxHops depth edge.target then walk
  else
    { kept := {
        adjacency := walk.kept.adjacency.insert node
          ((walk.kept.adjacency.lookup node).getD [] ++
            [(edge.target, edge.weight.componentId)])
        tokenNodes := walk.kept.tokenNodes.insert edge.target
        componentIds := walk.kept.componentIds.insert edge.weight.componentId }
      visited := walk.visited.insert edge.target
      queue :=
        if edge.target ∈ walk.visited then walk.queue
        else walk.queue ++ [(edge.target, depth + 1)] }

/-- Takes one node off the queue. -/
def walkNode (walk : SubgraphWalk) (node : NodeIndex) (depth : Nat) : SubgraphWalk :=
  if depth ≥ maxHops then walk
  else
    (graph.outgoing node).foldl
      (keepEdge graph constraints endpoints hopsToTokenOut maxHops node depth) walk

/-- Takes nodes off the queue until it is empty. A node waits at most once, so as many turns as
there are nodes are enough. -/
def walkQueue : Nat → SubgraphWalk → SubgraphWalk
  | 0, walk => walk
  | turns + 1, walk =>
    match walk.queue with
    | [] => walk
    | (node, depth) :: rest =>
      walkQueue turns (walkNode graph constraints endpoints hopsToTokenOut maxHops
        { walk with queue := rest } node depth)

/-- The walk before its first turn: the source token waits. -/
def startWalk (tokenIn : NodeIndex) : SubgraphWalk where
  kept := ⟨∅, [tokenIn], []⟩
  visited := [tokenIn]
  queue := [(tokenIn, 0)]

/-- The edges within the budget of a walk from the source token; nothing when there are none. -/
def getSubgraphWithHopMap : Option Subgraph :=
  let walk := walkQueue graph constraints endpoints hopsToTokenOut maxHops graph.nodes.length
    (startWalk endpoints.1)
  if walk.kept.adjacency.entries.isEmpty then none else some walk.kept

/-- The part of the graph that can carry a route of at most `maxHops` hops. -/
def getSubgraph (tokenIn tokenOut : NodeIndex) (maxHops : Nat) : Option Subgraph :=
  getSubgraphWithHopMap graph constraints (tokenIn, some tokenOut)
    (some (getHopsToReach graph constraints tokenIn tokenOut maxHops)) maxHops

end Walks

/-! ## The context of a solve -/

section Targets

variable {graph : TokenDiGraph D} {constraints : ResolvedRouteConstraints}
  {endpoints : NodeIndex × Option NodeIndex} {hopsToTokenOut : Option (Map NodeIndex Nat)}
  {maxHops : Nat}

/-- Every kept edge enters a node of the graph. -/
def Subgraph.TargetsInside (graph : TokenDiGraph D) (subgraph : Subgraph) : Prop :=
  ∀ node edges, subgraph.adjacency.lookup node = some edges →
    ∀ edge ∈ edges, edge.1 < graph.nodes.length

variable {walk : SubgraphWalk}

section

variable (inside : walk.kept.TargetsInside graph)
include inside

private theorem keepEdge_targetsInside {node depth : Nat}
    {edge : PoolEdge D} (member : edge ∈ graph.edges) :
    (keepEdge graph constraints endpoints hopsToTokenOut maxHops node depth walk
      edge).kept.TargetsInside graph := by
  unfold keepEdge
  split
  · exact inside
  · split
    · exact inside
    · intro other edges found kept inList
      by_cases same : other = node
      · subst same
        rw [AList.lookup_insert] at found
        cases found
        obtain old | new := mem_append.mp inList
        · cases known : walk.kept.adjacency.lookup other with
          | none => simp [known] at old
          | some before => exact inside other before known kept (by simpa [known] using old)
        · rw [mem_singleton.mp new]
          exact (graph.ends_lt edge member).2
      · rw [AList.lookup_insert_ne same] at found
        exact inside other edges found kept inList

private theorem walkNode_targetsInside {node depth : Nat} :
    (walkNode graph constraints endpoints hopsToTokenOut maxHops walk node
      depth).kept.TargetsInside graph := by
  unfold walkNode
  split
  · exact inside
  · refine List.foldlRecOn (motive := fun walk : SubgraphWalk => walk.kept.TargetsInside graph) _ _
      inside fun walk inside edge member => ?_
    exact keepEdge_targetsInside inside (StableDiGraph.mem_outgoing.mp member).1

private theorem walkQueue_targetsInside (turns : Nat) :
    (walkQueue graph constraints endpoints hopsToTokenOut maxHops turns
      walk).kept.TargetsInside graph := by
  induction turns generalizing walk with
  | zero => exact inside
  | succ turns ih =>
    unfold walkQueue
    split
    · exact inside
    · refine ih (walkNode_targetsInside ?_)
      exact inside

end

private theorem getSubgraphWithHopMap_targets {subgraph : Subgraph}
    (found : getSubgraphWithHopMap graph constraints endpoints hopsToTokenOut maxHops =
      some subgraph) : subgraph.TargetsInside graph := by
  simp only [getSubgraphWithHopMap] at found
  split at found
  · cases found
  · cases found
    exact walkQueue_targetsInside (fun node edges known => by simp [startWalk] at known) _

end Targets

/-- The length of the arrays a solve allocates. -/
def arrayLength (graph : TokenDiGraph D) : Nat := graph.nodeIndices.max?.getD 0 + 1

private theorem lt_arrayLength {graph : TokenDiGraph D} {node : NodeIndex}
    (inside : node < graph.nodes.length) : node < arrayLength graph :=
  Nat.lt_succ_of_le (le_max?_getD_of_mem (mem_range.mpr inside))

/-- The snapshot a solve reads. A node whose token the market lacks gets no metadata. -/
def BellmanFordAlgorithm.contextFromSnapshot (algorithm : BellmanFordAlgorithm)
    (graph : TokenDiGraph D) (marketData : MarketState P) (subgraph : Subgraph)
    (tokenInNode : NodeIndex) (tokenOutNode : Option NodeIndex)
    (sourceInside : tokenInNode < graph.nodes.length)
    (destinationInside : ∀ node ∈ tokenOutNode, node < graph.nodes.length)
    (targetsInside : subgraph.TargetsInside graph) : BellmanFordContext P :=
  let tokenMap : Map NodeIndex Token := subgraph.tokenNodes.foldl (fun tokens node =>
    match marketData.getToken (tokenOf graph node) with
    | some token => tokens.insert node token
    | none => tokens) ∅
  { tokenInNode := tokenInNode
    tokenOutNode := tokenOutNode
    adj := subgraph.adjacency
    tokenMap := tokenMap
    marketData := marketData
    gasPriceWei := marketData.gasPrice
    tokenPrices := none
    spotPrices := none
    nodeAddress := tokenMap.entries.foldl (fun addresses entry =>
      addresses.insert entry.1 entry.2.address) ∅
    maxIdx := arrayLength graph
    scoring := if algorithm.gasAware then .netOutput else .grossOutput
    tokenInNode_lt := lt_arrayLength sourceInside
    tokenOutNode_lt := fun node member => lt_arrayLength (destinationInside node member)
    adj_lt := fun node edges found edge member =>
      lt_arrayLength (targetsInside node edges found edge member) }

/-- Prices a solve may use, absent until they are computed. -/
structure DerivedData where
  tokenPrices : Option TokenGasPrices
  spotPrices : Option SpotPrices

/-- What one solve is given. Reading the market under an unknown label fails with a message. -/
structure SolveRequest (P D : Type) where
  graph : TokenDiGraph D
  order : Order
  market : Except String (MarketView P)
  derived : Option DerivedData
  constraints : ResolvedRouteConstraints

private theorem lt_of_find?_nodeIndices {graph : TokenDiGraph D} {matching : NodeIndex → Bool}
    {node : NodeIndex} (found : graph.nodeIndices.find? matching = some node) :
    node < graph.nodes.length :=
  mem_range.mp (mem_of_find?_eq_some found)

/-- Prepares the context of an order: its endpoints, the subgraph between them and the snapshot
of the market under it. -/
def BellmanFordAlgorithm.buildContext (algorithm : BellmanFordAlgorithm)
    (request : SolveRequest P D) : Except AlgorithmError (BellmanFordContext P) :=
  let order := request.order
  let graph := request.graph
  let noPath := fun reason => AlgorithmError.noPath order.tokenIn order.tokenOut reason
  if !order.isSell then .error .exactOutNotSupported
  else
    match sourceFound : graph.nodeIndices.find? fun node => tokenOf graph node = order.tokenIn with
    | none => .error (noPath .sourceTokenNotInGraph)
    | some tokenInNode =>
      match destinationFound :
          graph.nodeIndices.find? fun node => tokenOf graph node = order.tokenOut with
      | none => .error (noPath .destinationTokenNotInGraph)
      | some tokenOutNode =>
        if tokenInNode = tokenOutNode then .error (noPath .noGraphPath)
        else
          match subgraphFound :
              getSubgraph graph request.constraints tokenInNode tokenOutNode algorithm.maxHops with
          | none => .error (noPath .noGraphPath)
          | some subgraph =>
            match request.market with
            | .error message => .error (.other message)
            | .ok view =>
              let marketData :=
                view.base.extractSubsetWithOverlay view.overlay subgraph.componentIds
              let ctx := algorithm.contextFromSnapshot graph marketData subgraph tokenInNode
                (some tokenOutNode) (lt_of_find?_nodeIndices sourceFound)
                (fun _ named => Option.some.inj named ▸ lt_of_find?_nodeIndices destinationFound)
                (getSubgraphWithHopMap_targets subgraphFound)
              .ok { ctx with
                tokenPrices := request.derived.bind DerivedData.tokenPrices
                spotPrices := request.derived.bind DerivedData.spotPrices }

end Fynd
