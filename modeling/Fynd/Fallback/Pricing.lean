import Fynd.Feed.MarketIndexes
import Fynd.Split.Replay

/-!
# Pricing a route through its fallbacks

A leg that a fallback router executes may miss its block. The router then runs the leg on a
fallback pool. The pool is the one that pays most for the leg's input, of those that hold the
leg's pair and that nothing excludes. A route with such legs is priced once more with every one
of them moved onto its fallback pool.
-/

namespace Fynd

open Foundation

variable {P : Type}

/-- Whether a fallback router executes a swap. -/
def Swap.usesFallbackRouter (swap : Swap P) : Bool := swap.protocol.startsWith "fallback:"

/-- Whether a route has a leg that a fallback router executes. -/
def hasFallbackLeg (route : Route P) : Bool := route.swaps.any Swap.usesFallbackRouter

/-- A pair of tokens in either order. -/
def sortedPair (tokenA tokenB : Address) : Address × Address :=
  if tokenA ≤ tokenB then (tokenA, tokenB) else (tokenB, tokenA)

/-- The pools that can serve as a fallback, by pair, and the pairs each of them is filed under. -/
structure FallbackPoolIndex where
  pools : Map (Address × Address) (List ComponentId)
  keys : Map ComponentId (List (Address × Address))

def FallbackPoolIndex.candidatesFor (index : FallbackPoolIndex) (tokenA tokenB : Address) :
    List ComponentId :=
  (index.pools.lookup (sortedPair tokenA tokenB)).getD []

/-- Why a route could not be priced through its fallbacks. -/
inductive FallbackError
  | noFallbackPool (componentId : ComponentId) (tokenIn tokenOut : Address)
  | allPoolsExcluded (componentId : ComponentId)
  | simulationFailed (componentId : ComponentId)
  | replayFailed (reason : String)
  deriving DecidableEq, Repr

/-- What a worker reports for an error. -/
def FallbackError.rejection : FallbackError → RouteRejection
  | .noFallbackPool _ _ _ => .fallbackPoolMissing
  | .allPoolsExcluded _ => .fallbackExcluded
  | .simulationFailed _ | .replayFailed _ => .fallbackNotSimulatable

/-- The text of an error. -/
def ReplayError.message (display : Address → String) : ReplayError → String
  | .emptyRoute => "route has no swaps"
  | .missingState componentId => "no simulation state for component " ++ componentId
  | .missingToken address => "token " ++ display address ++ " missing from the market state"
  | .simulation componentId error =>
    "simulation failed on component " ++ componentId ++ ": " ++ error

section Pricing

variable [ProtocolSim P] (display : Address → String)
  (encodes : ProtocolComponent → P → Address → Address → Bool) (view : MarketView P)
  (index : FallbackPoolIndex) (filter : RouteConstraints) (poolExclusions : List String)

/-- Whether a candidate is ruled out by the request, by the worker pool, or because its protocol is
out of sync. -/
def isExcludedCandidate (candidate : ComponentId) : Bool :=
  candidate ∈ filter.excludedPools || candidate ∈ view.base.unsyncedPools ||
    (view.getComponent candidate).any fun component =>
      decide (∃ entry ∈ filter.excludedProtocols,
        protocolMatches entry component.protocolSystem = true) ||
      poolExclusions.any fun entry => protocolMatches entry component.protocolSystem

/-- What a candidate pays for a leg, if it can be encoded and simulated. -/
def fallbackLeg (swap : Swap P) (tokenIn tokenOut : Token) (candidate : ComponentId) :
    Option (FallbackLeg P) := do
  let component ← view.getComponent candidate
  let state ← view.getSimulationState candidate
  if !encodes component state swap.tokenIn swap.tokenOut then none
  else do
    let simulated ← (getAmountOutGuarded state swap.amountIn tokenIn tokenOut).toOption
    return ⟨component, state, simulated.amount⟩

/-- The fallback of a leg: the candidate that pays most, the first of equals. -/
def selectFallback (swap : Swap P) : Except FallbackError (FallbackLeg P) :=
  let candidates := index.candidatesFor swap.tokenIn swap.tokenOut
  if candidates.isEmpty then
    .error (.noFallbackPool swap.componentId swap.tokenIn swap.tokenOut)
  else
    let admitted := candidates.filter fun candidate =>
      !isExcludedCandidate view filter poolExclusions candidate
    if admitted.isEmpty then .error (.allPoolsExcluded swap.componentId)
    else
      match view.getToken swap.tokenIn, view.getToken swap.tokenOut with
      | some tokenIn, some tokenOut =>
        ((admitted.filterMap (fallbackLeg encodes view swap tokenIn tokenOut)).foldl
          (fun best leg => if best.all fun kept => kept.amountOut < leg.amountOut then some leg
            else best) none).elim (.error (.simulationFailed swap.componentId)) .ok
      | _, _ => .error (.simulationFailed swap.componentId)

/-- Every leg as it would execute: one with a fallback moves onto its fallback pool. -/
def substituteFallback (swap : Swap P) : Swap P :=
  match swap.fallback with
  | none => swap
  | some fallback =>
    { componentId := fallback.protocolComponent.id
      protocol := fallback.protocolComponent.protocolSystem
      tokenIn := swap.tokenIn, tokenOut := swap.tokenOut, amountIn := swap.amountIn
      amountOut := fallback.amountOut, gasEstimate := swap.gasEstimate
      protocolComponent := fallback.protocolComponent, protocolState := fallback.protocolState
      split := swap.split }

/-- Gives every leg that a fallback router executes its fallback, and prices the route through
them. -/
def priceThroughFallbacks (route : Route P) :
    Except FallbackError (Route P × Nat) := do
  let swaps ← route.swaps.mapM fun swap =>
    if swap.usesFallbackRouter then do
      let fallback ← selectFallback encodes view index filter poolExclusions swap
      return { swap with fallback := some fallback }
    else return swap
  let substituted := swaps.map substituteFallback
  let subset := view.base.extractSubsetWithOverlay view.overlay
    (substituted.map Swap.componentId)
  let replayed ← (Route.new substituted ∅).mapError fun _ =>
    .replayFailed "route must contain at least one swap"
  let replay ← (replayRoute replayed subset).mapError fun error =>
    .replayFailed (error.message display)
  return ({ route with swaps := swaps }, replay.amountOut)

end Pricing

end Fynd
