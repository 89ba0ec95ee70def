import Fynd.Types.Route

/-!
# The context a Bellman-Ford solve runs on

`BellmanFordContext` is the snapshot every solve reads: the pruned adjacency, the
token metadata, the pool states and the prices. The arithmetic that compares gas
costs across tokens is here too.
-/

namespace Fynd

/-- The smallest integer not below `value * multiplier / denominator`. -/
def mulDivCeil (value multiplier denominator : Nat) : Option Nat :=
  if denominator = 0 then none
  else some ((value * multiplier + denominator - 1) / denominator)

/-- The cost of `gas` in raw units of the priced token. -/
def gasCostInToken (gas gasPriceWei : Nat) (price : Price) : Option Nat :=
  mulDivCeil (gas * gasPriceWei) price.numerator price.denominator

/-- Token addresses to conversion rates. -/
abbrev TokenGasPrices := Address → Option Price

/-- Spot prices, in whole tokens out per whole token in. -/
abbrev SpotPrices := ComponentId → Address → Address → Option Float

/-- Mantissa and binary exponent of a finite positive number, read from its bits. -/
def integerDecode (value : Float) : Nat × Int :=
  let bits := value.toBits.toNat
  let exponent : Nat := bits / 2 ^ 52 % 2 ^ 11
  let fraction : Nat := bits % 2 ^ 52
  (if exponent = 0 then fraction * 2 else fraction + 2 ^ 52, (exponent : Int) - (1023 + 52))

/-- How routes are ranked. -/
inductive RouteScoringMode
  | grossOutput
  | netOutput
  deriving DecidableEq, Repr

/-- Pool states that shadow the market's for one solve. -/
abbrev MarketOverrides (P : Type) := Map ComponentId P

/-- The configuration of the algorithm. The timeout is not a number here: whether it has
passed at the start of a round is an input of each run. -/
structure BellmanFordAlgorithm where
  maxHops : Nat
  gasAware : Bool
  connectorTokens : Option (Finset Address)

/-- Everything one solve reads. Every node index in it is below `maxIdx`, the length of the
arrays a solve allocates. -/
structure BellmanFordContext (P : Type) where
  tokenInNode : NodeIndex
  tokenOutNode : Option NodeIndex
  adj : Map NodeIndex (List (NodeIndex × ComponentId))
  tokenMap : Map NodeIndex Token
  marketData : MarketState P
  gasPriceWei : Option Nat
  tokenPrices : Option TokenGasPrices
  spotPrices : Option SpotPrices
  nodeAddress : Map NodeIndex Address
  maxIdx : Nat
  scoring : RouteScoringMode
  tokenInNode_lt : tokenInNode < maxIdx
  tokenOutNode_lt : ∀ node ∈ tokenOutNode, node < maxIdx
  adj_lt : ∀ node edges, adj.lookup node = some edges → ∀ edge ∈ edges, edge.1 < maxIdx

/-- Gross amount less the gas cost, or the gross amount when no rate is known. -/
def gasAdjustedAmount (gross cumulGas gasPriceWei : Nat) (tokenPrice : Option Price) : Int :=
  let gasCost := (tokenPrice.bind (gasCostInToken cumulGas gasPriceWei)).getD 0
  (gross : Int) - (gasCost : Int)

/-- The spot-price product of a path extended by one edge; zero once a price is missing. -/
def computeEdgeSpotProduct (parentSpot : Float) (componentId : ComponentId)
    (sourceAddress targetAddress : Option Address) (spotPrices : Option SpotPrices) : Float :=
  if parentSpot == 0.0 then 0.0
  else
    match sourceAddress, targetAddress, spotPrices with
    | some source, some target, some prices =>
      match prices componentId source target with
      | some spot => if spot > 0.0 then parentSpot * spot else 0.0
      | none => 0.0
    | _, _, _ => 0.0

/-- The gas-to-token rate: the listed price of the token, else the price of the input token
carried along the spot-price product and rescaled by the decimals, else nothing. -/
def resolveTokenPrice (token : Option Token) (tokenPrices : Option TokenGasPrices)
    (spotProduct : Float) (tokenIn : Option Token) : Option Price := do
  let prices ← tokenPrices
  let token ← token
  if let some price := prices token.address then
    return price
  let tokenIn ← tokenIn
  let inPrice ← prices tokenIn.address
  let validSpot := spotProduct > 0.0 && spotProduct.isFinite
  if !validSpot || inPrice.numerator = 0 || inPrice.denominator = 0 then
    none
  else if token.decimals ≥ 2 ^ 8 || tokenIn.decimals ≥ 2 ^ 8 then
    none
  else
    let (mantissa, exponent) := integerDecode spotProduct
    let shift := 2 ^ exponent.natAbs
    let numerator := inPrice.numerator * mantissa * if exponent ≥ 0 then shift else 1
    let denominator := inPrice.denominator * if exponent ≥ 0 then 1 else shift
    return {
      numerator := numerator * 10 ^ (token.decimals - tokenIn.decimals)
      denominator := denominator * 10 ^ (tokenIn.decimals - token.decimals) }

variable {P : Type}

/-- Whether the connector allowlist permits routing into a node. The endpoints always are. -/
def BellmanFordAlgorithm.connectorAllows (algorithm : BellmanFordAlgorithm)
    (ctx : BellmanFordContext P) (node : NodeIndex) : Bool :=
  match algorithm.connectorTokens, ctx.nodeAddress.lookup node with
  | some tokens, some address =>
    node = ctx.tokenInNode || ctx.tokenOutNode = some node || decide (address ∈ tokens)
  | _, _ => true

/-- The pool state a solve simulates a component on: the override, else the market's. -/
def BellmanFordContext.poolState (ctx : BellmanFordContext P)
    (overrides : MarketOverrides P) (componentId : ComponentId) : Option P :=
  (overrides.lookup componentId).or (ctx.marketData.getSimulationState componentId)

/-- The gas price and token prices a solve compares net amounts with; nothing when it compares
gross amounts. -/
def BellmanFordContext.gasPricing (ctx : BellmanFordContext P) : Option (Nat × TokenGasPrices) :=
  match ctx.scoring, ctx.gasPriceWei, ctx.tokenPrices with
  | .netOutput, some gasPrice, some tokenPrices => some (gasPrice, tokenPrices)
  | _, _, _ => none

end Fynd
