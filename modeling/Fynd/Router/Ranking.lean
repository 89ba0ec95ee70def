import Fynd.Exclusive.Commitment

/-!
# The ranking of an order's quotes

The router ranks the quotes of an order's worker pools by their output net of gas, and
answers with a placeholder where no quote can be ranked. Of the worker pools that may use
exclusive liquidity it takes the best candidate instead.
-/

namespace Fynd

variable {P : Type}

/-- One worker pool's answer for an order. -/
structure WorkerPoolQuote (P : Type) where
  workerPool : String
  quote : OrderQuote P

/-- The answers for an order: quotes, and the worker pools that failed with their errors. -/
structure OrderResponses (P : Type) where
  orderId : String := ""
  quotes : List (WorkerPoolQuote P)
  failedSolvers : List (String × SolveError)

/-- The request options that ranking reads. -/
structure QuoteOptions where
  maxGas : Option Nat := none

/-- Whether a worker pool may use exclusive liquidity. -/
def includesExclusive (poolScopes : Map String LiquidityScope) (workerPool : String) : Bool :=
  poolScopes.lookup workerPool = some .includeExclusive

/-- Whether a quote obeys the gas cap of the request. -/
def withinMaxGas (quote : OrderQuote P) (options : QuoteOptions) : Bool :=
  options.maxGas.all fun cap => quote.gasEstimate ≤ cap

namespace OrderResponses

/-- The answers without the quotes of worker pools that may use exclusive liquidity. -/
def publicOnly (responses : OrderResponses P) (poolScopes : Map String LiquidityScope) :
    OrderResponses P :=
  { responses with
    quotes := responses.quotes.filter fun answer =>
      !includesExclusive poolScopes answer.workerPool }

end OrderResponses

/-- Whether a quote can be ranked against the others of a request. -/
def isRankable (quote : OrderQuote P) (options : QuoteOptions) : Bool :=
  quote.status = .success && withinMaxGas quote options

/-! ## Placeholders -/

/-- How specific an error is: the lowest tier says most about the order. -/
def causeTier : SolveError → Nat
  | .noRouteFound _ (some .sourceTokenNotInGraph) => 0
  | .noRouteFound _ (some .destinationTokenNotInGraph) => 0
  | .noRouteFound _ (some .amountTooSmall) => 1
  | .noRouteFound _ (some .noScorablePaths) => 2
  | .noRouteFound _ (some .noGraphPath) => 3
  | .routeRejected _ _ => 1
  | .insufficientLiquidity _ _ | .maxGasExceeded => 2
  | .missingData _ | .marketDataStale _ | .computationFailed _ | .notReady _ => 3
  | .simulationFailed _ | .algorithmError _ => 4
  | .timeout _ | .queueFull | .internal _ | .invalidWorkerPools _ | .invalidOrder _ => 5
  | .failedEncoding _ | .encodingUnavailable _ | .priceCheckFailed _ | .panicked _ => 5
  | .noRouteFound _ none => 6
  | .requiredTokensNotSupported => 7

/-- The most specific error, the first of several. -/
def lowestTierCause (causes : List SolveError) : Option SolveError :=
  causes.foldl (fun best cause => some (best.elim cause fun kept =>
    if causeTier cause < causeTier kept then cause else kept)) none

/-- The most specific error of the worker pools that failed. -/
def aggregateNoRouteCause (failedSolvers : List (String × SolveError)) : Option SolveError :=
  lowestTierCause (failedSolvers.map Prod.snd)

section

variable (responses : OrderResponses P) (poolScopes : Map String LiquidityScope)
  (options : QuoteOptions)

/-- The errors behind quotes that cannot be ranked. The gas cap is one if a quote exceeds it. -/
def noRouteCauses : List SolveError :=
  responses.quotes.filterMap (fun answer => answer.quote.noRouteCause) ++
    responses.failedSolvers.map Prod.snd ++
    if responses.quotes.any fun answer => !withinMaxGas answer.quote options then
      [.maxGasExceeded] else []

/-- The status of an order that no worker pool answered. -/
def failureStatus (failedSolvers : List (String × SolveError)) : QuoteStatus :=
  if failedSolvers.isEmpty then .noRouteFound
  else if failedSolvers.all fun failed => failed.2 matches .timeout _ then .timeout
  else if failedSolvers.all fun failed => failed.2 matches .notReady _ then .notReady
  else .noRouteFound

/-- The quote of an order without a quote that can be ranked. -/
def placeholderQuote : OrderQuote P :=
  match responses.quotes.head? with
  | some answer =>
    { orderId := responses.orderId, status := .noRouteFound, route := none
      amountIn := answer.quote.amountIn, amountOut := 0, gasEstimate := 0, amountOutNetGas := 0
      sender := answer.quote.sender, receiver := answer.quote.receiver
      noRouteCause := lowestTierCause (noRouteCauses responses options) }
  | none =>
    { orderId := responses.orderId, status := failureStatus responses.failedSolvers
      route := none, amountIn := 0
      amountOut := 0, gasEstimate := 0, amountOutNetGas := 0, sender := [], receiver := []
      noRouteCause := aggregateNoRouteCause responses.failedSolvers }

/-! ## Ranking -/

/-- A quote nets no less than another. -/
def NetsAtLeast (quote other : OrderQuote P) : Prop :=
  other.amountOutNetGas ≤ quote.amountOutNetGas

instance : DecidableRel (@NetsAtLeast P) :=
  fun quote other => inferInstanceAs (Decidable (other.amountOutNetGas ≤ quote.amountOutNetGas))

/-- The quotes of an order from the best net output down, or a placeholder. -/
def rankQuotes : List (OrderQuote P) :=
  let validQuotes := (responses.quotes.map WorkerPoolQuote.quote).filter
    fun quote => isRankable quote options
  if validQuotes.isEmpty then [placeholderQuote responses options]
  else validQuotes.insertionSort NetsAtLeast

instance : Std.Total (@NetsAtLeast P) :=
  ⟨fun quote other => Nat.le_total other.amountOutNetGas quote.amountOutNetGas⟩

instance : IsTrans (OrderQuote P) NetsAtLeast :=
  ⟨fun _ _ _ first second => second.trans first⟩

/-- Quotes are ranked from the best net output down. -/
theorem rankQuotes_pairwise : (rankQuotes responses options).Pairwise NetsAtLeast := by
  unfold rankQuotes
  dsimp only
  split
  · apply List.pairwise_singleton
  · apply List.pairwise_insertionSort

/-- The best ranked quote that succeeded on a route without an exclusive swap. A quote of a public
pool can use exclusive liquidity, pinned to its own commitment, and is then no public price. -/
def findPublicReference (ranked : List (OrderQuote P)) : Option (OrderQuote P) :=
  ranked.find? fun quote => quote.status = .success &&
    quote.route.any fun route => !routesThroughExclusive route.swaps

/-- Whether a quote's route has one exclusive leg that reaches the output. -/
def hasValidExclusiveRoute (quote : OrderQuote P) : Bool :=
  quote.route.any fun route => route.outputToken.any fun outputToken =>
    exclusiveRouteShape route.swaps outputToken = .valid

/-- The quotes that may be pinned: successful ones of pools that may use exclusive liquidity, within
the gas cap and of valid shape. -/
def exclusiveCandidates : List (OrderQuote P) :=
  ((responses.quotes.filter fun answer => includesExclusive poolScopes answer.workerPool).map
    WorkerPoolQuote.quote).filter fun quote =>
      quote.status = .success && withinMaxGas quote options && hasValidExclusiveRoute quote

/-- Keeps the better of two quotes, the later of equals. -/
def keepBetter : Option (OrderQuote P) → OrderQuote P →
    Option (OrderQuote P)
  | none, quote => some quote
  | some kept, quote =>
    if quote.amountOutNetGas < kept.amountOutNetGas then some kept else some quote

/-- The last of the quotes with the best net output. -/
def maxByNet (quotes : List (OrderQuote P)) : Option (OrderQuote P) :=
  quotes.foldl keepBetter none

/-- The exclusive candidate with the best net output. -/
def bestExclusiveCandidate : Option (OrderQuote P) :=
  maxByNet (exclusiveCandidates responses poolScopes options)

private theorem maxByNet_mem {quotes : List (OrderQuote P)} {best : OrderQuote P}
    (found : maxByNet quotes = some best) : best ∈ quotes := by
  refine List.foldlRecOn (motive := fun kept => kept = some best → best ∈ quotes) (b := none)
    quotes keepBetter nofun ?_ found
  intro kept inside quote member better
  cases kept with
  | none => exact Option.some.inj better ▸ member
  | some held =>
    rw [keepBetter] at better
    split at better
    · exact inside better
    · exact Option.some.inj better ▸ member

variable {responses poolScopes options} in
/-- The candidate is on a route of valid shape. -/
theorem bestExclusiveCandidate_valid {candidate : OrderQuote P}
    (found : bestExclusiveCandidate responses poolScopes options = some candidate) :
    candidate ∈ exclusiveCandidates responses poolScopes options ∧
      ∃ route outputToken, candidate.route = some route ∧
        route.outputToken = some outputToken ∧
        exclusiveRouteShape route.swaps outputToken = .valid := by
  have member := maxByNet_mem found
  refine ⟨member, ?_⟩
  have kept := (List.mem_filter.mp member).2
  simp only [Bool.and_eq_true, hasValidExclusiveRoute, Option.any_eq_true,
    decide_eq_true_eq] at kept
  obtain ⟨_, route, routed, outputToken, ends, valid⟩ := kept
  exact ⟨route, outputToken, routed, ends, valid⟩

end

end Fynd
