import Fynd.BellmanFord.Subgraph
import Fynd.Split.BuiltRoute
import Fynd.Split.Validation

/-!
# Splitting an order over several paths

`findBestRoute` solves an order on a single path and then looks for a split that nets more.
Each iteration finds a further path on the pool states the paths so far leave behind, gives it
the share of the input that a line search picks, and simulates all paths again. Errors of the
search lose the split, never the single path.
-/

namespace Fynd

open Foundation

variable {P : Type}

/-- What tunes the search for a split. -/
structure PathFrankWolfeConfig where
  maxPaths : Nat
  maxProbe : Binary64
  minSplit : Binary64
  lineSearchEvals : Nat
  deriving DecidableEq, Repr

def PathFrankWolfeConfig.default : PathFrankWolfeConfig := ⟨4, 0.25, 0.05, 12⟩

/-- The split search around a single-path solver. -/
structure PathFrankWolfeAlgorithm where
  inner : BellmanFordAlgorithm
  config : PathFrankWolfeConfig

/-- What the clock says during a solve: whether an iteration finds the deadline passed, and
whether a round of the relaxation made for an iteration does. Iteration zero is the single
path. -/
structure SolveClock where
  expired : Nat → Bool
  relaxing : Nat → Nat → Bool

/-! ## Pools whose committed directions cost no gas -/

/-- A pool state that charges no gas for some of its directions. -/
structure SelectiveZeroGasSim (P : Type) where
  inner : P
  zeroGasPairs : List (Address × Address)
  deriving DecidableEq

instance [ProtocolSim P] : ProtocolSim (SelectiveZeroGasSim P) where
  getAmountOut sim amountIn tokenIn tokenOut :=
    match ProtocolSim.getAmountOut sim.inner amountIn tokenIn tokenOut with
    | .returned result => .returned {
        amount := result.amount
        gas := if (tokenIn.address, tokenOut.address) ∈ sim.zeroGasPairs then 0 else result.gas
        newState := ⟨result.newState, sim.zeroGasPairs⟩ }
    | .failed error => .failed error
    | .panicked message => .panicked message

/-- A pool state that charges for every direction. -/
def SelectiveZeroGasSim.plain (state : P) : SelectiveZeroGasSim P := ⟨state, []⟩

/-- Frees one direction of a pool that is overridden. -/
def withZeroGas (overrides : MarketOverrides (SelectiveZeroGasSim P)) (id : ComponentId)
    (tokenIn tokenOut : Address) : MarketOverrides (SelectiveZeroGasSim P) :=
  match overrides.lookup id with
  | none => overrides
  | some sim => overrides.insert id ⟨sim.inner, (tokenIn, tokenOut) :: sim.zeroGasPairs⟩

/-- The market over other pool states. -/
def MarketState.mapStates {Other : Type} (change : P → Other)
    (market : MarketState P) : MarketState Other where
  components := market.components
  simulationStates := mapValues change market.simulationStates
  tokens := market.tokens
  gasPrice := market.gasPrice
  label := market.label
  protocolSyncStatus := market.protocolSyncStatus
  lastUpdated := market.lastUpdated
  unsyncedProtocols := market.unsyncedProtocols
  unsyncedPools := market.unsyncedPools
  componentsByProtocol := market.componentsByProtocol
  constraintGeneration := market.constraintGeneration

/-- The context over other pool states. -/
def BellmanFordContext.mapStates {Other : Type} (change : P → Other)
    (ctx : BellmanFordContext P) : BellmanFordContext Other where
  tokenInNode := ctx.tokenInNode
  tokenOutNode := ctx.tokenOutNode
  adj := ctx.adj
  tokenMap := ctx.tokenMap
  marketData := ctx.marketData.mapStates change
  gasPriceWei := ctx.gasPriceWei
  tokenPrices := ctx.tokenPrices
  spotPrices := ctx.spotPrices
  nodeAddress := ctx.nodeAddress
  maxIdx := ctx.maxIdx
  scoring := ctx.scoring
  tokenInNode_lt := ctx.tokenInNode_lt
  tokenOutNode_lt := ctx.tokenOutNode_lt
  adj_lt := ctx.adj_lt

/-! ## The line search -/

/-- The interval a golden-section search has narrowed to, with its two inner points. -/
structure Bracket where
  lo : Binary64
  hi : Binary64
  x1 : Binary64
  x2 : Binary64
  f1 : Binary64
  f2 : Binary64

/-- The inverse of the golden ratio. The bits are those of the square root of five. -/
def invPhi : Binary64 := ((⟨0x4001E3779B97F4A8⟩ : Binary64).sub 1).div 2

/-- Drops the part of the interval beyond the lower of the two points. -/
def Bracket.narrow (f : Binary64 → Binary64) (bracket : Bracket) : Bracket :=
  if bracket.f1.lt bracket.f2 then
    let lo := bracket.x1
    let x2 := lo.add (invPhi.mul (bracket.hi.sub lo))
    ⟨lo, bracket.hi, bracket.x2, x2, bracket.f2, f x2⟩
  else
    let hi := bracket.x2
    let x1 := hi.sub (invPhi.mul (hi.sub bracket.lo))
    ⟨bracket.lo, hi, x1, bracket.x1, f x1, bracket.f1⟩

/-- About the point of an interval at which a function is greatest. -/
def goldenSectionSearch (f : Binary64 → Binary64) (lo hi : Binary64) (maxEvals : Nat) : Binary64 :=
  let x1 := hi.sub (invPhi.mul (hi.sub lo))
  let x2 := lo.add (invPhi.mul (hi.sub lo))
  let final := (Bracket.narrow f)^[maxEvals - 2] ⟨lo, hi, x1, x2, f x1, f x2⟩
  if final.f1.ge final.f2 then final.x1 else final.x2

/-! ## Gas in units of the output -/

section Gas

variable (ctx : BellmanFordContext P)

/-- The cost of gas in a token, if the gas price and the price of the token are known. -/
def gasUnitsToOutputTokens (gas : Nat) (outputToken : Address) : Option Nat := do
  let gasPrice ← ctx.gasPriceWei
  let prices ← ctx.tokenPrices
  let price ← prices outputToken
  gasCostInToken gas gasPrice price

/-- The cost as the objective takes it: nothing where it is unknown. -/
def gasUnitsToOutputTokensF64 (gas : Nat) (outputToken : Address) : Binary64 :=
  (gasUnitsToOutputTokens ctx gas outputToken).elim 0 Binary64.ofNat

/-- The cost of the gas of a route in its output token. -/
def gasCostOutputTokens (route : Route P) : Except AlgorithmError Binary64 :=
  match route.swaps.getLast? with
  | none => .error (.other "route has no swaps")
  | some lastSwap => .ok (gasUnitsToOutputTokensF64 ctx route.totalGas lastSwap.tokenOut)

/-- The output of a split net of gas. -/
def computeSplitNetAmountOut (route : Route P) : Except AlgorithmError Int :=
  match route.swaps.getLast? with
  | none => .error (.other "route has no swaps")
  | some lastSwap =>
    let totalOut := route.amountOut lastSwap.tokenOut
    let gasCost := (gasUnitsToOutputTokens ctx route.totalGas lastSwap.tokenOut).getD 0
    .ok ((totalOut : Int) - (gasCost : Int))

end Gas

/-! ## Whether a further path is worth a look -/

/-- A count of decimals as the signed number it is read as. -/
def decimalsAsI32 (decimals : Nat) : Int :=
  if decimals < 2 ^ 31 then decimals else (decimals : Int) - 2 ^ 32

/-- How far the output of a path falls short of its marginal price. -/
def pathProbeImpact (displayFloat : Binary64 → String) (path : PathAllocation) :
    Except AlgorithmError Binary64 := do
  let firstHop ← path.hops.head?.elim (.error (.other "path has no hops")) .ok
  let lastHop ← path.hops.getLast?.elim (.error (.other "path has no hops")) .ok
  let amountIn := Binary64.ofNat path.amountIn
  let amountOut := Binary64.ofNat path.amountOut
  if amountIn.le 0 then
    throw (.other ("non-positive amount_in (" ++ displayFloat amountIn ++ ")"))
  if path.marginalPriceProduct.le 0 then
    throw (.other ("non-positive marginal_price_product (" ++
      displayFloat path.marginalPriceProduct ++ ")"))
  let amountInHuman :=
    amountIn.div ((10 : Binary64).powi (decimalsAsI32 firstHop.descriptor.tokenIn.decimals))
  let amountOutHuman :=
    amountOut.div ((10 : Binary64).powi (decimalsAsI32 lastHop.descriptor.tokenOut.decimals))
  let referenceOutputHuman := amountInHuman.mul path.marginalPriceProduct
  return (1 : Binary64).sub (amountOutHuman.div referenceOutputHuman)

/-- The impact of all paths, each weighted by its share. -/
def estimateProbeImpact (displayFloat : Binary64 → String) (paths : List PathAllocation) :
    Except AlgorithmError Binary64 :=
  paths.foldlM (fun weighted path => do
    let impact ← pathProbeImpact displayFloat path
    return weighted.add (path.flowFraction.mul impact)) 0

/-- The amount to look for a further path with: what the gas of a path takes to pay off, unless
the impact leaves nothing to gain or the amount is beyond the cap. -/
def computeProbeAmount (config : PathFrankWolfeConfig) (totalAmount : Nat)
    (probeImpact gasCostOutputTokens : Binary64) : Option Nat :=
  if probeImpact.le 0 then none
  else
    let gasFloor := gasCostOutputTokens.div probeImpact
    let probeAmount := gasFloor.ceilToU128
    let maxProbeAmount := (splitAmount totalAmount config.maxProbe).1
    if probeAmount > maxProbeAmount then none else some probeAmount

/-- Whether a path has the pools and the directions of one of the paths so far. -/
def isDuplicatePath (candidate : List SimulatedHop) (existing : List PathAllocation) : Bool :=
  existing.any fun allocation =>
    decide (allocation.hops.map (fun hop => hopKey hop.descriptor) =
      candidate.map fun hop => hopKey hop.descriptor)

/-! ## Paths and their simulation -/

section Paths

variable (display : Address → String) (symbol : Token → String) (displayFloat : Binary64 → String)
  (spotPrice : SpotPriceFn P Binary64)

/-- The hops of a route with what its swaps paid. -/
def simulatedHops {State : Type} (route : Route State) :
    Except AlgorithmError (List SimulatedHop) :=
  route.swaps.mapM fun swap => do
    let tokenIn ← require "token" (display swap.tokenIn) (route.tokens.lookup swap.tokenIn)
    let tokenOut ← require "token" (display swap.tokenOut) (route.tokens.lookup swap.tokenOut)
    return ⟨⟨swap.componentId, tokenIn, tokenOut⟩, swap.amountOut, swap.gasEstimate⟩

/-- The spot prices along a path, multiplied. -/
def computeMarginalPriceProduct (hops : List HopDescriptor) (market : MarketState P)
    (overrides : MarketOverrides P) : Except AlgorithmError Binary64 :=
  hops.foldlM (fun product hop => do
    let sim ← require "simulation state" hop.componentId
      ((overrides.lookup hop.componentId).or (market.getSimulationState hop.componentId))
    let price ← (spotPrice sim hop.tokenIn hop.tokenOut).mapError
      (.simulationFailed hop.componentId)
    return product.mul price) 1

/-- What simulating a path gives: the output, the prices it met, what each hop paid and cost,
and the states its pools are left in. -/
structure SimResult (P : Type) where
  amountOut : Nat
  marginalPriceProduct : Binary64
  hopResults : List (Nat × Nat)
  postSwapStates : List (ComponentId × P)

/-- The whole input on the path of a route. -/
def routeToAllocation (ctx : BellmanFordContext P) (route : Route P)
    (order : Order) : Except AlgorithmError PathAllocation := do
  let hops ← simulatedHops display route
  if hops.isEmpty then
    throw (.dataNotFound "swap" (some "route contains no swaps"))
  let marginalPriceProduct ← computeMarginalPriceProduct spotPrice
    (hops.map SimulatedHop.descriptor) ctx.marketData ∅
  return {
    hops := hops
    flowFraction := 1
    amountIn := order.amount
    amountOut := (hops.getLast?.map SimulatedHop.amountOut).getD 0
    marginalPriceProduct := marginalPriceProduct }

variable [ProtocolSim P]

/-- Simulates one more hop, on the state an earlier hop left its pool in if there is one. -/
def simulateHop (market : MarketState P) (overrides : MarketOverrides P)
    (sim : SimResult P) (hop : HopDescriptor) :
    Except AlgorithmError (SimResult P) := do
  let own := (sim.postSwapStates.reverse.find? fun entry => entry.1 = hop.componentId).map Prod.snd
  let state ← require "simulation state" hop.componentId
    ((own.or (overrides.lookup hop.componentId)).or (market.getSimulationState hop.componentId))
  let price ← (spotPrice state hop.tokenIn hop.tokenOut).mapError
    (.simulationFailed hop.componentId)
  let result ← (getAmountOutGuarded state sim.amountOut hop.tokenIn hop.tokenOut).mapError
    (.simulationFailed hop.componentId)
  return {
    amountOut := result.amount
    marginalPriceProduct := sim.marginalPriceProduct.mul price
    hopResults := sim.hopResults ++ [(result.amount, result.gas)]
    postSwapStates := sim.postSwapStates ++ [(hop.componentId, result.newState)] }

/-- Simulates a path, each hop fed what the one before paid. -/
def simulatePath (hops : List HopDescriptor) (amountIn : Nat) (market : MarketState P)
    (overrides : MarketOverrides P) : Except AlgorithmError (SimResult P) :=
  hops.foldlM (simulateHop spotPrice market overrides) ⟨amountIn, 1, [], []⟩

/-- The states the pools of a split are left in. -/
def buildPostSwapOverrides (paths : List PathAllocation) (market : MarketState P) :
    Except AlgorithmError (MarketOverrides P) :=
  match paths.head?.bind fun path => path.hops.head? with
  | none => .ok ∅
  | some rootHop => do
      let execution ← executeSplitPlan display symbol paths market ∅ .skip
        rootHop.descriptor.tokenIn.address (paths.map PathAllocation.amountIn).sum
      return execution.postSwap

/-- The best path for the probe amount on what the paths so far leave. Their directions cost no
gas again. -/
def findCandidatePath (algorithm : PathFrankWolfeAlgorithm) (ctx : BellmanFordContext P)
    (currentAllocations : List PathAllocation) (probeAmount : Nat) (timedOut : Nat → Bool) :
    Except AlgorithmError (List SimulatedHop) := do
  let postSwap ← buildPostSwapOverrides display symbol currentAllocations ctx.marketData
  let overrides := (currentAllocations.flatMap PathAllocation.hops).foldl
    (fun overrides hop => withZeroGas overrides hop.descriptor.componentId
      hop.descriptor.tokenIn.address hop.descriptor.tokenOut.address)
    (mapValues SelectiveZeroGasSim.plain postSwap)
  let tokenIn ← require "token_in node index" s!"NodeIndex({ctx.tokenInNode})"
    (ctx.nodeAddress.lookup ctx.tokenInNode)
  let tokenOut ← (ctx.tokenOutNode.bind fun node => ctx.nodeAddress.lookup node).elim
    (.error (.dataNotFound "token_out node index"
      (ctx.tokenOutNode.map fun node => s!"NodeIndex({node})"))) .ok
  let result ← findSingleRoute algorithm.inner (ctx.mapStates SelectiveZeroGasSim.plain) overrides
    ⟨tokenIn, tokenOut, probeAmount, .sell⟩ timedOut
  simulatedHops display result.route

/-- The output net of gas if a share of the input moves from the paths so far to a candidate. -/
def evaluateStep (ctx : BellmanFordContext P) (currentAllocations : List PathAllocation)
    (candidate : List HopDescriptor) (outputToken : Address) (totalAmount : Nat)
    (stepSize : Binary64) : Binary64 :=
  let moved : Bool := stepSize.gt 0
  let trialFractions := (currentAllocations.map fun allocation =>
    allocation.flowFraction.mul ((1 : Binary64).sub stepSize)) ++ if moved then [stepSize] else []
  let trialPaths := (currentAllocations.map fun allocation =>
    allocation.hops.map SimulatedHop.descriptor) ++ if moved then [candidate] else []
  match evaluateTotalOutput display symbol trialPaths trialFractions totalAmount
      ctx.marketData ∅ with
  | .ok (totalOutput, gas) =>
    (Binary64.ofNat totalOutput).sub (gasUnitsToOutputTokensF64 ctx gas outputToken)
  | .error _ => 0

/-- The share of the input to move to a candidate: nothing if it does not pay. -/
def optimizeStepSize (config : PathFrankWolfeConfig) (ctx : BellmanFordContext P)
    (currentAllocations : List PathAllocation) (candidate : List SimulatedHop)
    (totalAmount : Nat) : Binary64 :=
  match candidate.getLast? with
  | none => 0
  | some lastHop =>
    let evaluateSplit := evaluateStep display symbol ctx currentAllocations
      (candidate.map SimulatedHop.descriptor) lastHop.descriptor.tokenOut.address totalAmount
    let stepSize := goldenSectionSearch evaluateSplit 0 1 config.lineSearchEvals
    if (evaluateSplit stepSize).le (evaluateSplit 0) then 0 else stepSize

/-- Simulates a path at its share, on what the paths before it left. -/
def resimulate (ctx : BellmanFordContext P) (totalAmount : Nat)
    (done : List PathAllocation × MarketOverrides P) (path : PathAllocation × Binary64) :
    Except AlgorithmError (List PathAllocation × MarketOverrides P) := do
  let (allocation, fraction) := path
  let amountIn := (splitAmount totalAmount fraction).1
  let sim ← simulatePath spotPrice (allocation.hops.map SimulatedHop.descriptor) amountIn
    ctx.marketData done.2
  let resimulated : PathAllocation := {
    hops := List.zipWith (fun hop result => ⟨hop.descriptor, result.1, result.2⟩) allocation.hops
      sim.hopResults
    flowFraction := fraction
    amountIn := amountIn
    amountOut := sim.amountOut
    marginalPriceProduct := sim.marginalPriceProduct }
  return (done.1 ++ [resimulated],
    sim.postSwapStates.foldl (fun overrides entry => overrides.insert entry.1 entry.2) done.2)

/-- Moves a share of the input to a candidate, drops the paths left with too little and
simulates the rest in turn. -/
def applyStep (config : PathFrankWolfeConfig) (ctx : BellmanFordContext P)
    (allocations : List PathAllocation) (candidate : List SimulatedHop) (stepSize : Binary64)
    (totalAmount : Nat) : Except AlgorithmError (List PathAllocation) := do
  let scaled := allocations.map fun allocation : PathAllocation =>
    { allocation with flowFraction := allocation.flowFraction.mul ((1 : Binary64).sub stepSize) }
  let added : PathAllocation := ⟨candidate, stepSize, 0, 0, 0⟩
  let kept := (scaled ++ [added]).filter fun allocation =>
    allocation.flowFraction.ge config.minSplit
  let fractions ← (normalizeFractions (kept.map PathAllocation.flowFraction)).mapError
    fun error => .other error.message
  let (resimulated, _) ← (kept.zip fractions).foldlM (resimulate spotPrice ctx totalAmount) ([], ∅)
  return resimulated

/-! ## The search -/

variable (algorithm : PathFrankWolfeAlgorithm) (ctx : BellmanFordContext P) (clock : SolveClock)

/-- The iterations left to run, the number of the next one and the paths so far. -/
def searchPaths (totalAmount : Nat) (gasCost : Binary64) :
    Nat → Nat → List PathAllocation → Except AlgorithmError (List PathAllocation)
  | 0, _, allocations => .ok allocations
  | iterations + 1, iteration, allocations =>
    if clock.expired iteration then .ok allocations
    else do
      let probeImpact ← estimateProbeImpact displayFloat allocations
      match computeProbeAmount algorithm.config totalAmount probeImpact gasCost with
      | none => .ok allocations
      | some probeAmount =>
        match findCandidatePath display symbol algorithm ctx allocations probeAmount
            (clock.relaxing iteration) with
        | .error _ => .ok allocations
        | .ok candidate =>
          if isDuplicatePath candidate allocations then .ok allocations
          else
            let stepSize := optimizeStepSize display symbol algorithm.config ctx allocations
              candidate totalAmount
            if stepSize.lt algorithm.config.minSplit then .ok allocations
            else do
              let next ← applyStep spotPrice algorithm.config ctx allocations candidate
                stepSize totalAmount
              searchPaths totalAmount gasCost iterations (iteration + 1) next

/-- The split the search ends with, if it ends with several paths and a route that validates. -/
def optimizeSplit (order : Order) (single : RouteResult P) :
    Except AlgorithmError (Option (RouteResult P)) := do
  let allocation ← routeToAllocation display spotPrice ctx single.route order
  let gasCost ← gasCostOutputTokens ctx single.route
  let initialProbeImpact ← estimateProbeImpact displayFloat [allocation]
  match computeProbeAmount algorithm.config order.amount initialProbeImpact gasCost with
  | none => return none
  | some _ =>
    let allocations ← searchPaths display symbol displayFloat spotPrice algorithm ctx clock
      order.amount gasCost (algorithm.config.maxPaths - 1) 1 [allocation]
    if allocations.length ≤ 1 then return none
    else
      let splitRoute ← buildSplitRoute display symbol allocations ctx.marketData order
      match splitRoute.validate display displayFloat with
      | .error _ => return none
      | .ok _ =>
        let splitNet ← computeSplitNetAmountOut ctx splitRoute
        return some { route := splitRoute, netAmountOut := splitNet
                      gasPrice := ctx.gasPriceWei.getD 0 }

/-- The split if it nets more than the single path, else the single path. -/
def findBestRoute (request : SolveRequest P Unit) :
    Except AlgorithmError (RouteResult P) := do
  let ctx ← algorithm.inner.buildContext request
  let single ← findSingleRoute algorithm.inner ctx ∅ request.order (clock.relaxing 0)
  match optimizeSplit display symbol displayFloat spotPrice algorithm ctx clock request.order
      single with
  | .ok (some split) => return if split.netAmountOut > single.netAmountOut then split else single
  | _ => return single

end Paths

end Fynd
