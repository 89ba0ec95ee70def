import Fynd.BellmanFord.Context
import Fynd.Encoding.Encoder
import Fynd.Feed.MarketIndexes
import Fynd.Router.Surplus

/-!
# From a request to ranked candidates

A request is sent to the worker pools that serve it. The gas of every answer is estimated
anew, answers whose fallback misses the user's floor are dropped, and what is left is ranked
order by order and shown to the price guard. Refinement and the floor go through the answers
of all orders in one loop, which an error ends.
-/

namespace Fynd

open Foundation

variable {P F : Type}

/-! ## Which worker pools serve a request -/

/-- Whether a request may route through exclusive liquidity. -/
inductive ExclusiveAccess
  | denied
  | granted
  deriving DecidableEq, Repr

/-- What an order is and what it may reach. -/
structure OrderClass where
  exclusiveAccess : ExclusiveAccess
  requiresTokens : Bool

namespace OrderClass

/-- The same class without the condition on required tokens. -/
def withoutRequiredTokens (orderClass : OrderClass) : OrderClass :=
  { orderClass with requiresTokens := false }

/-- The class as a debug message prints it. -/
def debug (orderClass : OrderClass) : String :=
  let access := match orderClass.exclusiveAccess with
    | .denied => "Denied"
    | .granted => "Granted"
  "OrderClass \x7b exclusive_access: " ++ access ++ ", requires_tokens: " ++
    toString orderClass.requiresTokens ++ " \x7d"

end OrderClass

/-- A worker pool: its name, the liquidity it routes through, and whether its algorithm honours
required tokens. -/
structure SolverPoolHandle where
  name : String
  liquidityScope : LiquidityScope
  supportsRequiredTokens : Bool

/-- Whether a worker pool serves orders of a class. -/
def SolverPoolHandle.serves (pool : SolverPoolHandle) (orderClass : OrderClass) : Bool :=
  let scopeServes := match pool.liquidityScope with
    | .publicOnly => true
    | .includeExclusive => orderClass.exclusiveAccess = .granted
  scopeServes && (!orderClass.requiresTokens || pool.supportsRequiredTokens)

/-- The worker pools selected for an order, their scopes by name, and whether one of them routes
through exclusive liquidity. -/
structure Allocation where
  workerPools : List SolverPoolHandle
  scopes : Map String LiquidityScope
  exclusiveRoutingActive : Bool

/-- What the worker pools answer to the order at a position. -/
abbrev OrderSolver (P : Type) := Nat → Order → Allocation → OrderResponses P

/-- Rejects an allowlist that is empty or names a pool that is not configured. -/
def validatePoolAllowlist (workerPools : List SolverPoolHandle) (allowlist : List String) :
    Except SolveError Unit :=
  if allowlist.isEmpty then
    .error (.invalidWorkerPools
      "worker pool allowlist is empty; omit it to use every pool that serves the request")
  else
    let unknown := allowlist.filter fun name => !workerPools.any fun pool => pool.name == name
    if !unknown.isEmpty then
      .error (.invalidWorkerPools ("unknown worker pool(s) [" ++
        ", ".intercalate (unknown.map String.quote) ++ "]"))
    else .ok ()

/-- Selects the worker pools that serve a class, of those the request allows. -/
def allocate (workerPools : List SolverPoolHandle) (orderClass : OrderClass)
    (poolAllowlist : Option (List String)) : Allocation :=
  let selected := (workerPools.filter fun pool => pool.serves orderClass).filter fun pool =>
    poolAllowlist.all fun allowlist => allowlist.any fun name => name == pool.name
  let scopes := mapOfList (selected.map fun pool => (pool.name, pool.liquidityScope))
  { workerPools := selected
    scopes := scopes
    exclusiveRoutingActive := scopes.entries.any fun entry => entry.2 = .includeExclusive }

/-! ## Refinement and the floor -/

/-- How the router executes a route. -/
inductive Strategy
  | single
  | sequential
  | split
  deriving DecidableEq, Repr

/-- The strategy of a quote's route. -/
def deriveStrategy (quote : OrderQuote P) : Strategy :=
  match quote.route with
  | none => .single
  | some route =>
    if route.swaps.length = 1 then .single
    else if route.swaps.any fun swap => swap.split.gt 0 then .split
    else .sequential

/-- The output net of gas after refinement: the gas cost scales with the gas, rounded up. It panics
where the output was below its own net. -/
def refinedNetAmountOut (amountOut naiveNet refinedGas naiveGas : Nat) : Except SolveError Nat :=
  if naiveNet = 0 then .ok 0
  else do
    let naiveGasCost ← subOrPanic amountOut naiveNet
    return (mulDivCeil naiveGasCost refinedGas naiveGas).elim 0 fun refinedGasCost =>
      amountOut - refinedGasCost

/-- What the outside contributes to refinement: the gas of a solution. -/
abbrev EstimateGasUsage (P : Type) := Solution P → Strategy → Nat

/-- Estimates the gas of a candidate anew. -/
def refineGasEstimate (fallbackUserData : FallbackUserData P)
    (estimateGasUsage : EstimateGasUsage P) (options : EncodingOptions P F)
    (quote : OrderQuote P) : Except SolveError (OrderQuote P) :=
  if quote.status ≠ .success then .ok quote
  else do
    let solution ← solutionFromQuote fallbackUserData quote quote.amountOut none
    let refinedGas := estimateGasUsage { solution with userTransferType := options.transferType }
      (deriveStrategy quote)
    if quote.gasEstimate > 0 then do
      let net ← refinedNetAmountOut quote.amountOut quote.amountOutNetGas refinedGas
        quote.gasEstimate
      return { quote with amountOutNetGas := net, gasEstimate := refinedGas }
    else return quote

section Floor

variable [Double F]

/-- Whether a fallback fill pays the floor after fees. -/
def fallbackClearsFloor (F : Type) [Double F] (floor fallbackAmountOut clientFeeBps : Nat)
    (feeRates : FeeRates) : Except SolveError Bool := do
  let fallbackFill ← calculateFeeBreakdown fallbackAmountOut clientFeeBps
    (Double.ofNat 0 : F) feeRates
  return floor ≤ fallbackFill.minAmountReceived

/-- Whether the legs of a quote fall back to a fill that still pays the user's floor. -/
def fallbackClearsMinAmountOut (routerFees : RouterFees) (quote : OrderQuote P)
    (options : EncodingOptions P F) : Except SolveError Bool :=
  match quote.route.bind Route.fallbackAmountOut with
  | none => .ok true
  | some fallbackAmountOut => do
      let clientFeeBps := options.clientFeeParams.elim 0 ClientFeeParams.bps
      let feeRates := routerFees.feesFor (feeClient options quote)
      let floor ← calculateFeeBreakdown quote.amountOut clientFeeBps options.slippage feeRates
      fallbackClearsFloor F floor.minAmountReceived fallbackAmountOut clientFeeBps feeRates

/-- Marks a candidate whose fallback misses the floor, so that ranking skips it. -/
def dropBelowMinAmountOut (routerFees : RouterFees) (options : EncodingOptions P F)
    (quote : OrderQuote P) : Except SolveError (OrderQuote P) :=
  if quote.status ≠ .success then .ok quote
  else if (quote.route.bind Route.fallbackAmountOut).isNone then .ok quote
  else do
    let clears ← fallbackClearsMinAmountOut routerFees quote options
    if clears then return quote
    else return { quote with
      status := .noRouteFound
      noRouteCause := some (.routeRejected quote.orderId .fallbackBelowMinAmountOut) }

end Floor

/-- Applies a step to every quote of an order. -/
def OrderResponses.mapQuotes (step : OrderQuote P → Except SolveError (OrderQuote P))
    (responses : OrderResponses P) : Except SolveError (OrderResponses P) := do
  let quotes ← responses.quotes.mapM fun answer => do
    let quote ← step answer.quote
    return { answer with quote := quote }
  return { responses with quotes := quotes }

/-! ## Ranked candidates -/

/-- The candidates of every order, best first. Every order has one. -/
structure RankedQuotes (P : Type) where
  perOrder : List (List (OrderQuote P))
  nonempty : ∀ candidates ∈ perOrder, candidates ≠ []

/-- Wraps candidates, rejecting an order without one. -/
def RankedQuotes.startedAt (perOrder : List (List (OrderQuote P))) :
    Except SolveError (RankedQuotes P) :=
  if nonempty : ∀ candidates ∈ perOrder, candidates ≠ [] then .ok ⟨perOrder, nonempty⟩
  else .error (.internal ("order " ++ toString (perOrder.findIdx List.isEmpty) ++
    " has no candidates: represent an order without a quote by a non-Success OrderQuote " ++
    "(e.g. QuoteStatus::NoRouteFound), which is how the response reports it"))

/-- A request: its orders, and what its options ask for. -/
structure QuoteRequest (P F : Type) where
  orders : List Order
  options : QuoteOptions := {}
  routeFilter : RouteConstraints := ⟨∅, ∅, ∅, ∅⟩
  workerPools : Option (List String) := none
  encodingOptions : Option (EncodingOptions P F) := none

/-- The router: the worker pools, the encoder with the fees it reads, the price guard if there is
one, and the user's share of an improvement. -/
structure WorkerPoolRouter (P : Type) where
  solverPools : List SolverPoolHandle
  encoder : Encoder P
  routerFees : RouterFees
  priceGuard : Option (PriceGuard P) := none
  userImprovementShareBps : Nat := 1000
  estimateGasUsage : EstimateGasUsage P

namespace WorkerPoolRouter

section Solve

variable [Double F]

/-- Refines the answers of all orders, then drops those that miss the floor. -/
def refineResponses (router : WorkerPoolRouter P) (options : EncodingOptions P F)
    (orderResponses : List (OrderResponses P)) :
    Except SolveError (List (OrderResponses P)) := do
  let refined ← orderResponses.mapM (OrderResponses.mapQuotes
    (refineGasEstimate router.encoder.fallbackUserData router.estimateGasUsage options))
  refined.mapM (OrderResponses.mapQuotes (dropBelowMinAmountOut router.routerFees options))

/-- Ranks the answers of an order, with the exclusive candidate laid over them where exclusive
routing is active. -/
def rankOrder (router : WorkerPoolRouter P) (options : QuoteOptions) (allocation : Allocation)
    (responses : OrderResponses P) : Except SolveError (List (OrderQuote P)) :=
  if allocation.exclusiveRoutingActive then
    (rankWithSurplus responses allocation.scopes options router.userImprovementShareBps).elim
      (.error (.panicked "attempt to subtract with overflow")) .ok
  else .ok (rankQuotes responses options)

/-- Shows the ranked candidates to the price guard if the request asks for it. -/
def validatePrices (router : WorkerPoolRouter P) (request : QuoteRequest P F)
    (ranked : List (List (OrderQuote P))) : Except SolveError (List (List (OrderQuote P))) :=
  let asked := request.encodingOptions.map EncodingOptions.priceGuard
  match asked.filter PriceGuardConfig.enabled with
  | none => .ok ranked
  | some config =>
    router.priceGuard.elim
      (.error (.internal
        "price guard config provided but price guard is not enabled on this server"))
      fun guard => (guard.validate config ranked).mapError fun error => .internal error.message

/-- The class of the orders of a request. -/
def orderClass (request : QuoteRequest P F) (access : ExclusiveAccess) : OrderClass :=
  ⟨access, request.routeFilter.requiredTokens ≠ ∅⟩

/-- Selects the worker pools of every order. -/
def allocateOrders (router : WorkerPoolRouter P) (request : QuoteRequest P F)
    (access : ExclusiveAccess) : Except SolveError (List Allocation) :=
  if router.solverPools.isEmpty then .error (.internal "no solver pools configured")
  else do
    let _ ← request.workerPools.elim (.ok ()) (validatePoolAllowlist router.solverPools)
    let served := orderClass request access
    let allocations := request.orders.map fun _ =>
      allocate router.solverPools served request.workerPools
    if allocations.any fun allocation => allocation.workerPools.isEmpty then
      if served.requiresTokens && !(allocate router.solverPools served.withoutRequiredTokens
          request.workerPools).workerPools.isEmpty then
        .error .requiredTokensNotSupported
      else .error (.internal ("no solver pool serves this request: " ++ served.debug))
    else return allocations

/-- What the router makes of the answers of the orders: refined, ranked, and validated. -/
def rankResponses (router : WorkerPoolRouter P) (request : QuoteRequest P F)
    (allocations : List Allocation) (orderResponses : List (OrderResponses P)) :
    Except SolveError (RankedQuotes P) := do
  let refined ← request.encodingOptions.elim (.ok orderResponses) fun options =>
    router.refineResponses options orderResponses
  let ranked ← (refined.zip allocations).mapM fun entry =>
    router.rankOrder request.options entry.2 entry.1
  let validated ← router.validatePrices request ranked
  RankedQuotes.startedAt validated

/-- Fans a request out to its worker pools and ranks every order's candidates. What the pools
answer is a parameter. -/
def solve (router : WorkerPoolRouter P) (request : QuoteRequest P F) (access : ExclusiveAccess)
    (solveOrder : OrderSolver P) :
    Except SolveError (RankedQuotes P) := do
  let allocations ← router.allocateOrders request access
  router.rankResponses request allocations
    ((request.orders.zip allocations).zipIdx.map fun entry =>
      solveOrder entry.2 entry.1.1 entry.1.2)

end Solve

end WorkerPoolRouter

end Fynd
