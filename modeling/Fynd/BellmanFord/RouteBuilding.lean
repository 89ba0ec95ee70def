import Fynd.BellmanFord.Relaxation
import Fynd.Foundation.Fallible

/-!
# From the arrays of a relaxation to its results

`findSingleRoute` walks the predecessors of the destination back to the source and
reads the amounts and the gas of the route off the arrays, without simulating it
again. `reachFromSourceToken` reads the same for every node the relaxation reached.
-/

namespace Fynd

open Foundation List

variable {P : Type}

/-- A hop of a reconstructed path: the node it leaves, the node it enters, its component. -/
abbrev PathEdge := NodeIndex × NodeIndex × ComponentId

/-- The walk of `reconstructPath`: the hops found so far lead from `current` on. The visited
nodes are distinct and have predecessors, so there are at most as many as array entries; the
count `steps` runs out only on a cycle. -/
def reconstructFrom (predecessor : NodeIndex → Option (NodeIndex × ComponentId))
    (tokenIn : NodeIndex) :
    Nat → List NodeIndex → List PathEdge → NodeIndex → Except AlgorithmError (List PathEdge)
  | steps, visited, path, current =>
    if current = tokenIn then .ok path
    else if current ∈ visited then .error (.other "cycle in predecessor chain")
    else
      match predecessor current, steps with
      | none, _ => .error (.other s!"broken predecessor chain at node {current}")
      | some _, 0 => .error (.other "cycle in predecessor chain")
      | some (previous, component), steps + 1 =>
        reconstructFrom predecessor tokenIn steps (current :: visited)
          ((previous, current, component) :: path) previous

/-- The path from `tokenIn` to `tokenOut` along the predecessors, held in `length` entries. -/
def reconstructPath (tokenOut tokenIn : NodeIndex)
    (predecessor : NodeIndex → Option (NodeIndex × ComponentId)) (length : Nat) :
    Except AlgorithmError (List PathEdge) :=
  reconstructFrom predecessor tokenIn length [] [] tokenOut

/-- A lookup that fails with the kind and the name of what is missing. -/
def require {α : Type} (kind id : String) : Option α → Except AlgorithmError α
  | some value => .ok value
  | none => .error (.dataNotFound kind (some id))

theorem require_eq_ok_iff {α : Type} {kind id : String} {found : Option α} {value : α} :
    require kind id found = .ok value ↔ found = some value := by
  cases found <;> simp [require]

/-- Inserts a token unless its address is present. -/
def insertToken (tokens : Map Address Token) (token : Token) : Map Address Token :=
  if (tokens.lookup token.address).isSome then tokens else tokens.insert token.address token

section Results

variable (algorithm : BellmanFordAlgorithm) (ctx : BellmanFordContext P)
  (overrides : MarketOverrides P)

/-- The swap of one hop, with the tokens it trades. -/
def buildSwap (amount edgeGas : NodeIndex → Nat) (edge : PathEdge) :
    Except AlgorithmError (Swap P × Token × Token) := do
  let (source, target, componentId) := edge
  let tokenIn ← require "token" s!"NodeIndex({source})" (ctx.tokenMap.lookup source)
  let tokenOut ← require "token" s!"NodeIndex({target})" (ctx.tokenMap.lookup target)
  let component ← require "component" componentId (ctx.marketData.getComponent componentId)
  let simState ← require "simulation state" componentId (ctx.poolState overrides componentId)
  return ({
      componentId := componentId
      protocol := component.protocolSystem
      tokenIn := tokenIn.address
      tokenOut := tokenOut.address
      amountIn := amount source
      amountOut := amount target
      gasEstimate := edgeGas target
      protocolComponent := component
      protocolState := simState }, tokenIn, tokenOut)

/-- The route along a reconstructed path. -/
def buildRoute (path : List PathEdge) (amount edgeGas : NodeIndex → Nat) :
    Except AlgorithmError (Route P) := do
  let parts ← path.mapM (buildSwap ctx overrides amount edgeGas)
  let tokens := parts.foldl
    (fun tokens part => insertToken (insertToken tokens part.2.1) part.2.2) ∅
  Route.new (parts.map Prod.fst) tokens

/-- The output net of gas, or the output itself when no rate prices the gas. -/
def computeNetAmountOut (amountOut : Nat) (route : Route P) (gasPrice : Nat)
    (tokenPrices : Option TokenGasPrices) (spotProduct : NodeIndex → Float)
    (nodeAddress : Map NodeIndex Address) (tokenInNode : NodeIndex) : Except AlgorithmError Int :=
  match route.swaps.getLast? with
  | none => .error (.other "compute_net_amount_out called with empty route")
  | some lastSwap =>
    if gasPrice = 0 then .ok amountOut
    else
      let outNodeSpot :=
        match nodeAddress.entries.find? fun entry => entry.2 = lastSwap.tokenOut with
        | some entry => spotProduct entry.1
        | none => 0.0
      let outputPrice := resolveTokenPrice (route.tokens.lookup lastSwap.tokenOut) tokenPrices
        outNodeSpot ((nodeAddress.lookup tokenInNode).bind route.tokens.lookup)
      match outputPrice.bind (gasCostInToken route.totalGas gasPrice) with
      | some gasCost => .ok ((amountOut : Int) - (gasCost : Int))
      | none => .ok amountOut

/-- The amount a found route is ranked by: gross scoring takes the output as it is. -/
def scoredAmountOut (spfa : SpfaState) (tokenOutNode : NodeIndex) (route : Route P)
    (gasPrice : Nat) : Except AlgorithmError Int :=
  match ctx.scoring with
  | .grossOutput => .ok (spfa.amount tokenOutNode)
  | .netOutput =>
    computeNetAmountOut (spfa.amount tokenOutNode) route gasPrice ctx.tokenPrices
      spfa.spotProduct ctx.nodeAddress ctx.tokenInNode

/-- What a relaxation delivers at a token it reached. -/
structure ReachedToken where
  amountOut : Nat
  hops : List PathEdge
  deriving DecidableEq, Repr

/-- Every token a relaxation reached, and whether it was cut short. -/
structure ReachOutcome where
  reached : Map Address ReachedToken
  timedOut : Bool

/-- What is read off the arrays at one node; nothing at the source, at zero, without metadata,
or when the path cannot be reconstructed. -/
def reachedAt (spfa : SpfaState) (node : NodeIndex) : Option (Address × ReachedToken) :=
  if spfa.amount node = 0 || node = ctx.tokenInNode then none
  else do
    let address ← ctx.nodeAddress.lookup node
    let hops ← (reconstructPath node ctx.tokenInNode spfa.predecessor ctx.maxIdx).toOption
    return (address, ⟨spfa.amount node, hops⟩)

variable [ProtocolSim P]

/-- Solves one order on a prepared context. -/
def findSingleRoute (order : Order) (timedOut : Nat → Bool) :
    Except AlgorithmError (RouteResult P) :=
  match ctx.tokenOutNode with
  | none => .error (.other "find_single_route needs a context built with a destination")
  | some tokenOutNode => do
      let spfa := (runSpfa algorithm ctx overrides order.amount timedOut).1
      if spfa.amount tokenOutNode = 0 then
        throw (.noPath order.tokenIn order.tokenOut
          (if spfa.inputBelowHopGas then .amountTooSmall else .noGraphPath))
      let path ← reconstructPath tokenOutNode ctx.tokenInNode spfa.predecessor ctx.maxIdx
      let route ← buildRoute ctx overrides path spfa.amount spfa.edgeGas
      let gasPrice := ctx.gasPriceWei.getD 0
      let netAmountOut ← scoredAmountOut ctx spfa tokenOutNode route gasPrice
      return { route := route, netAmountOut := netAmountOut, gasPrice := gasPrice }

/-- Every token the source token reaches, from one relaxation without overrides. -/
def reachFromSourceToken (amountIn : Nat) (timedOut : Nat → Bool) : ReachOutcome :=
  let spfa := runSpfa algorithm ctx ∅ amountIn timedOut
  { reached := ((List.range ctx.maxIdx).filterMap (reachedAt ctx spfa.1)).foldl
      (fun reached entry => reached.insert entry.1 entry.2) ∅
    timedOut := spfa.2 }

end Results

/-! ## What a successful read-out says -/

section ReadOut

variable {algorithm : BellmanFordAlgorithm} {ctx : BellmanFordContext P}
  {overrides : MarketOverrides P} {amount edgeGas : NodeIndex → Nat}

variable (ctx overrides amount edgeGas) in
/-- A swap that states what the arrays hold at the two ends of a hop. -/
structure ReadsHop (edge : PathEdge) (swap : Swap P) : Prop where
  component : swap.componentId = edge.2.2
  tokenIn : (ctx.tokenMap.lookup edge.1).map Token.address = some swap.tokenIn
  tokenOut : (ctx.tokenMap.lookup edge.2.1).map Token.address = some swap.tokenOut
  amountIn : swap.amountIn = amount edge.1
  amountOut : swap.amountOut = amount edge.2.1
  gas : swap.gasEstimate = edgeGas edge.2.1
  state : ctx.poolState overrides edge.2.2 = some swap.protocolState

private theorem buildSwap_eq_ok {edge : PathEdge} {part : Swap P × Token × Token}
    (built : buildSwap ctx overrides amount edgeGas edge = .ok part) :
    ReadsHop ctx overrides amount edgeGas edge part.1 := by
  obtain ⟨source, target, componentId⟩ := edge
  simp only [buildSwap, bind_eq_ok_iff, require_eq_ok_iff] at built
  obtain ⟨tokenIn, sourceKnown, tokenOut, targetKnown, component, -, simState, pool, done⟩ := built
  cases done
  exact ⟨rfl, by simp [sourceKnown], by simp [targetKnown], rfl, rfl, rfl, pool⟩

variable {path : List PathEdge} {timedOut : Nat → Bool}

/-- The swaps of a built route read the hops of its path. -/
theorem buildRoute_eq_ok {route : Route P}
    (built : buildRoute ctx overrides path amount edgeGas = .ok route) :
    List.Forall₂ (ReadsHop ctx overrides amount edgeGas) path route.swaps := by
  simp only [buildRoute, bind_eq_ok_iff, mapM_eq_ok_iff] at built
  obtain ⟨parts, built, new⟩ := built
  obtain ⟨rfl, -⟩ := Route.new_eq_ok new
  exact forall₂_map_right_iff.mpr (built.imp fun _ _ => buildSwap_eq_ok)

private theorem KeyedTokens.insertToken {tokens : Map Address Token} (keyed : KeyedTokens tokens)
    (added : Token) : KeyedTokens (insertToken tokens added) := by
  unfold Fynd.insertToken
  split
  · exact keyed
  · exact keyed.insert added

theorem keyedTokens_foldl {Item : Type} (tokenIn tokenOut : Item → Token) (items : List Item) :
    KeyedTokens (items.foldl (fun tokens item =>
      insertToken (insertToken tokens (tokenIn item)) (tokenOut item)) ∅) :=
  List.foldlRecOn (motive := KeyedTokens) items _ keyedTokens_empty fun _ keyed _ _ =>
    (keyed.insertToken _).insertToken _

/-- A built route files its tokens under their addresses. -/
theorem keyedTokens_of_buildRoute {route : Route P}
    (built : buildRoute ctx overrides path amount edgeGas = .ok route) :
    KeyedTokens route.tokens := by
  obtain ⟨parts, -, made⟩ := bind_eq_ok_iff.mp built
  obtain ⟨rfl, -⟩ := Route.new_eq_ok made
  exact keyedTokens_foldl (fun part => part.2.1) (fun part => part.2.2) parts

theorem componentIds_of_readsHop {swaps : List (Swap P)}
    (reads : List.Forall₂ (ReadsHop ctx overrides amount edgeGas) path swaps) :
    path.map (fun hop => hop.2.2) = swaps.map Swap.componentId := by
  induction reads with
  | nil => rfl
  | cons here _ ih => rw [map_cons, map_cons, here.component, ih]

private theorem reachedAt_eq_some {spfa : SpfaState} {node : NodeIndex} {address : Address}
    {token : ReachedToken} (read : reachedAt ctx spfa node = some (address, token)) :
    spfa.amount node ≠ 0 ∧ token.amountOut = spfa.amount node ∧
      reconstructPath node ctx.tokenInNode spfa.predecessor ctx.maxIdx = .ok token.hops := by
  unfold reachedAt at read
  split at read
  · cases read
  · rename_i guard
    simp only [Option.bind_eq_bind, Option.bind_eq_some_iff] at read
    obtain ⟨_, -, hops, reconstructed, done⟩ := read
    cases done
    cases path : reconstructPath node ctx.tokenInNode spfa.predecessor ctx.maxIdx with
    | error error => simp [path, Except.toOption] at reconstructed
    | ok found =>
      have same : found = hops := by simpa [path, Except.toOption] using reconstructed
      exact ⟨fun zero => guard (by simp [zero]), rfl, by rw [same]⟩

variable [ProtocolSim P]

section

variable {order : Order} {result : RouteResult P}
  (found : findSingleRoute algorithm ctx overrides order timedOut = .ok result)
include found

/-- A returned route is built along the reconstructed path of the destination and scored at what
the relaxation holds there. -/
theorem findSingleRoute_built :
    let spfa := (runSpfa algorithm ctx overrides order.amount timedOut).1
    ∃ tokenOutNode path, ctx.tokenOutNode = some tokenOutNode ∧
      spfa.amount tokenOutNode ≠ 0 ∧
      reconstructPath tokenOutNode ctx.tokenInNode spfa.predecessor ctx.maxIdx = .ok path ∧
      buildRoute ctx overrides path spfa.amount spfa.edgeGas = .ok result.route ∧
      scoredAmountOut ctx spfa tokenOutNode result.route (ctx.gasPriceWei.getD 0) =
        .ok result.netAmountOut := by
  unfold findSingleRoute at found
  cases destination : ctx.tokenOutNode with
  | none => simp [destination] at found
  | some tokenOutNode =>
    simp only [destination] at found
    split at found
    · cases found
    · rename_i nonzero
      simp only [bind_eq_ok_iff] at found
      obtain ⟨path, reconstructed, route, built, _, scored, done⟩ := found
      cases done
      exact ⟨tokenOutNode, path, rfl, nonzero, reconstructed, built, scored⟩

/-- A returned route is the one built along the reconstructed path of the destination. -/
theorem findSingleRoute_eq_ok :
    let state := (runSpfa algorithm ctx overrides order.amount timedOut).1
    ∃ tokenOutNode path, ctx.tokenOutNode = some tokenOutNode ∧ state.amount tokenOutNode ≠ 0 ∧
      reconstructPath tokenOutNode ctx.tokenInNode state.predecessor ctx.maxIdx = .ok path ∧
      List.Forall₂ (ReadsHop ctx overrides state.amount state.edgeGas) path
        result.route.swaps := by
  obtain ⟨tokenOutNode, path, destination, nonzero, reconstructed, built, _⟩ :=
    findSingleRoute_built found
  exact ⟨tokenOutNode, path, destination, nonzero, reconstructed, buildRoute_eq_ok built⟩

end

/-- Every reported token is read off some node of the relaxation. -/
theorem reachFromSourceToken_eq_some {amountIn : Nat} {address : Address} {token : ReachedToken}
    (found : (reachFromSourceToken algorithm ctx amountIn timedOut).reached.lookup address =
      some token) :
    let state := (runSpfa algorithm ctx ∅ amountIn timedOut).1
    ∃ node, state.amount node ≠ 0 ∧ token.amountOut = state.amount node ∧
      reconstructPath node ctx.tokenInNode state.predecessor ctx.maxIdx = .ok token.hops := by
  obtain ⟨node, -, read⟩ := mem_filterMap.mp (mem_of_lookup_mapOfList found)
  exact ⟨node, reachedAt_eq_some read⟩

end ReadOut

end Fynd
