import Fynd.BellmanFord.Subgraph
import Fynd.Foundation.Fallible

/-!
# Markets of linear pools

The simplest pools with the two features the relaxation meets in practice: a rate per
direction and a largest input. A list of them gives a whole request, its graph built
by the graph manager.
-/

namespace Fynd

open Foundation

/-- A rate, in percent, and the largest input a pool takes in one direction. -/
structure LinearQuote where
  tokenIn : Address
  tokenOut : Address
  percent : Nat
  limit : Nat
  deriving DecidableEq, Repr

/-- A pool that pays a share of its input in each quoted direction. -/
structure LinearPool where
  quotes : List LinearQuote
  deriving DecidableEq, Repr

instance : ProtocolSim LinearPool where
  getAmountOut pool amountIn tokenIn tokenOut :=
    match pool.quotes.find? fun quote =>
        quote.tokenIn = tokenIn.address && quote.tokenOut = tokenOut.address with
    | none => .failed "no liquidity"
    | some quote =>
      if amountIn ≤ quote.limit then .returned ⟨amountIn * quote.percent / 100, 1, pool⟩
      else .failed "amount exceeds limit"

namespace LinearPool

/-- A pool of two tokens that pays `percent` one way and a tenth of its input the other way. -/
def between (tokenIn tokenOut : Address) (percent limit : Nat) : LinearPool :=
  ⟨[⟨tokenIn, tokenOut, percent, limit⟩, ⟨tokenOut, tokenIn, 10, limit⟩]⟩

def tokens (pool : LinearPool) : List Address :=
  (pool.quotes.flatMap fun quote => [quote.tokenIn, quote.tokenOut]).dedup

/-- The component of a pool, tradeable in the given directions. -/
def stored (id : ComponentId) (pool : LinearPool) (swapDirections : List SwapDirection) :
    StoredComponent where
  component := ⟨id, "linear", pool.tokens, ∅⟩
  swapDirections := swapDirections

end LinearPool

/-- A pool with its id and the swap directions its component lists. -/
abbrev ListedPool := ComponentId × LinearPool × List SwapDirection

/-- A pool whose component lists every direction. -/
def listed (id : ComponentId) (pool : LinearPool) : ListedPool :=
  (id, pool, everySwapDirection pool.tokens)

/-- The market of a list of pools. -/
def linearMarket (pools : List ListedPool) : MarketState LinearPool where
  components := mapOfList (pools.map fun pool => (pool.1, pool.2.1.stored pool.1 pool.2.2))
  simulationStates := mapOfList (pools.map fun pool => (pool.1, pool.2.1))
  tokens := mapOfList ((pools.flatMap fun pool => pool.2.1.tokens).dedup.map fun token =>
    (token, ⟨token, 18⟩))
  gasPrice := none

/-- The graph the manager builds for a list of pools. -/
def linearGraph (pools : List ListedPool) : TokenDiGraph Unit :=
  (PetgraphStableDiGraphManager.initializeGraph (mapOfList (pools.map fun pool =>
    (pool.1, (pool.2.1.stored pool.1 pool.2.2).topology)))).graph

/-- An order on the market of a list of pools, without prices and without constraints. -/
def linearRequest (pools : List ListedPool) (order : Order) : SolveRequest LinearPool Unit where
  graph := linearGraph pools
  order := order
  market := .ok ⟨linearMarket pools, none⟩
  derived := none
  constraints := .default

/-- Two ways from token 0 to token 1, the longer one better, and one pool from token 1 to
token 3 that takes at most 200. -/
def detourPools : List ListedPool :=
  [listed "01" (.between 0 1 100 1000), listed "02" (.between 0 2 300 1000),
    listed "21" (.between 2 1 100 1000), listed "13" (.between 1 3 100 200)]

/-- Three hops, gross scoring, no connector list. -/
def threeHops : BellmanFordAlgorithm := ⟨3, false, none⟩

/-- A sale of 100 of token 0 for token 3. -/
def saleOfHundred : Order := ⟨0, 3, 100, .sell⟩

/-- The context built for the sale. -/
def detourContext : BellmanFordContext LinearPool :=
  okValue (threeHops.buildContext (linearRequest detourPools saleOfHundred)) (by decide +kernel)

/-- Token 2 is reached with 100, and rewritten to 300 through token 1 before a hop leaves it. -/
def improvedPools : List ListedPool :=
  [listed "01" (.between 0 1 300 1000), listed "02" (.between 0 2 100 1000),
    listed "12" (.between 1 2 100 1000), listed "23" (.between 2 3 100 1000)]

/-- The context of the same sale on them. -/
def improvedContext : BellmanFordContext LinearPool :=
  okValue (threeHops.buildContext (linearRequest improvedPools saleOfHundred)) (by decide +kernel)

end Fynd
