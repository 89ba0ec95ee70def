import Mathlib.Algebra.GroupWithZero.Nat
import Fynd.Foundation.Binary64
import Fynd.Types.Market

/-!
# Orders, constraints, routes and the errors of a solve
-/

namespace Fynd

open Foundation

/-- Whether an order fixes its input or its output. -/
inductive OrderSide
  | sell
  | buy
  deriving DecidableEq, Repr

/-- A swap order. -/
structure Order where
  tokenIn : Address
  tokenOut : Address
  amount : Nat
  side : OrderSide
  deriving DecidableEq, Repr

def Order.isSell (order : Order) : Bool := order.side = .sell

/-- The pools and tokens one solve must not use and the tokens each path must visit. -/
structure ResolvedRouteConstraints where
  excludedPools : Finset ComponentId
  excludedTokens : Finset Address
  requiredTokens : Finset Address
  unsyncedPools : Finset ComponentId
  deriving DecidableEq

namespace ResolvedRouteConstraints

/-- Nothing excluded, nothing required. -/
def default : ResolvedRouteConstraints := ⟨∅, ∅, ∅, ∅⟩

section

variable (constraints : ResolvedRouteConstraints)

def excludesToken (token : Address) : Bool :=
  token ∈ constraints.excludedTokens

/-- An endpoint, or a token the request does not exclude. -/
def allowsToken (token : Address) (endpoints : Address × Address) : Bool :=
  token = endpoints.1 || token = endpoints.2 || !constraints.excludesToken token

def isUnsyncedPool (id : ComponentId) : Bool :=
  id ∈ constraints.unsyncedPools

def excludesPool (id : ComponentId) : Bool :=
  id ∈ constraints.excludedPools || constraints.isUnsyncedPool id

/-- Whether nothing is excluded; a required token does not count. -/
def isEmpty : Bool :=
  constraints.excludedPools = ∅ && constraints.excludedTokens = ∅ && constraints.unsyncedPools = ∅

/-- Whether a token path, endpoints included, visits every required token. -/
def visitsAllRequiredTokens (path : List Address) : Bool :=
  decide (∀ token ∈ constraints.requiredTokens, token ∈ path)

end

end ResolvedRouteConstraints

/-- Why no path was found. -/
inductive NoPathReason
  | sourceTokenNotInGraph
  | destinationTokenNotInGraph
  | noGraphPath
  | noScorablePaths
  | amountTooSmall
  deriving DecidableEq, Repr

/-- What a solve fails with. -/
inductive AlgorithmError
  | noPath (source target : Address) (reason : NoPathReason)
  | exactOutNotSupported
  | simulationFailed (componentId error : String)
  | dataNotFound (kind : String) (id : Option String)
  | other (message : String)
  deriving DecidableEq, Repr

/-- The pool a leg falls back to, its state when it was chosen, and what it pays. -/
structure FallbackLeg (P : Type) where
  protocolComponent : ProtocolComponent
  protocolState : P
  amountOut : Nat

/-- A single swap of a route. A committed amount marks an exclusive leg. -/
structure Swap (P : Type) where
  componentId : ComponentId
  protocol : String
  tokenIn : Address
  tokenOut : Address
  amountIn : Nat
  amountOut : Nat
  gasEstimate : Nat
  protocolComponent : ProtocolComponent
  protocolState : P
  split : Binary64 := 0
  committedAmountOut : Option Nat := none
  fallback : Option (FallbackLeg P) := none

/-- A route: its swaps in execution order, the tokens they name, and what it pays if the legs with
a fallback pool fall back to it. -/
structure Route (P : Type) where
  swaps : List (Swap P)
  tokens : Map Address Token
  fallbackAmountOut : Option Nat := none

namespace Route

variable {P : Type}

/-- A route needs at least one swap. -/
def new (swaps : List (Swap P)) (tokens : Map Address Token) : Except AlgorithmError (Route P) :=
  if swaps.isEmpty then .error (.other "route must contain at least one swap")
  else .ok { swaps := swaps, tokens := tokens }

/-- The gas of all swaps. -/
def totalGas (route : Route P) : Nat :=
  route.swaps.foldl (fun total swap => total + swap.gasEstimate) 0

/-- The input token of the first swap. -/
def inputToken (route : Route P) : Option Address :=
  route.swaps.head?.map Swap.tokenIn

/-- The output token of the last swap. -/
def outputToken (route : Route P) : Option Address :=
  route.swaps.getLast?.map Swap.tokenOut

/-- What the route delivers in a token, over all swaps that end there. -/
def amountOut (route : Route P) (tokenOut : Address) : Nat :=
  ((route.swaps.filter fun swap => swap.tokenOut = tokenOut).map Swap.amountOut).sum

/-- Whether a swap carries a committed amount. -/
def hasExclusiveLeg (route : Route P) : Bool :=
  route.swaps.any fun swap => swap.committedAmountOut.isSome

theorem new_eq_ok {swaps : List (Swap P)} {tokens : Map Address Token}
    {route : Route P} (built : new swaps tokens = .ok route) :
    route = { swaps := swaps, tokens := tokens } ∧ swaps ≠ [] := by
  unfold new at built
  split at built
  · cases built
  · rename_i nonempty
    cases built
    exact ⟨rfl, by simpa using nonempty⟩

end Route

/-- How an order came out. -/
inductive QuoteStatus
  | success
  | noRouteFound
  | insufficientLiquidity
  | timeout
  | notReady
  | priceCheckFailed
  | encodingFailed
  deriving DecidableEq, Repr

/-- The status as a debug message prints it. -/
def QuoteStatus.name : QuoteStatus → String
  | .success => "Success"
  | .noRouteFound => "NoRouteFound"
  | .insufficientLiquidity => "InsufficientLiquidity"
  | .timeout => "Timeout"
  | .notReady => "NotReady"
  | .priceCheckFailed => "PriceCheckFailed"
  | .encodingFailed => "EncodingFailed"

/-- Why a route that was found could not be quoted. -/
inductive RouteRejection
  | fallbackPoolMissing
  | fallbackNotSimulatable
  | fallbackExcluded
  | fallbackBelowMinAmountOut
  deriving DecidableEq, Repr

/-- What solving or encoding an order fails with. Code that panics fails with the last one. -/
inductive SolveError
  | noRouteFound (orderId : String) (reason : Option NoPathReason)
  | routeRejected (orderId : String) (reason : RouteRejection)
  | insufficientLiquidity (required available : Nat)
  | timeout (elapsedMs : Nat)
  | algorithmError (message : String)
  | marketDataStale (ageMs : Nat)
  | queueFull
  | invalidOrder (message : String)
  | internal (message : String)
  | invalidWorkerPools (message : String)
  | notReady (message : String)
  | computationFailed (message : String)
  | failedEncoding (message : String)
  | encodingUnavailable (message : String)
  | priceCheckFailed (orderId : String)
  | maxGasExceeded
  | requiredTokensNotSupported
  | missingData (message : String)
  | simulationFailed (message : String)
  | panicked (message : String)
  deriving DecidableEq, Repr

/-- Raw bytes. -/
abbrev Bytes := List UInt8

/-- The surplus a quote captures and the output it commits to. -/
structure SurplusInfo where
  surplusAmount : Nat
  committedAmountOut : Nat
  deriving DecidableEq, Repr

/-- What the router and the client take, the slippage allowed, and what is left at least. The hash
of the swaps is there for a client that signs its fee. -/
structure FeeBreakdown where
  routerFee : Nat
  clientFee : Nat
  maxSlippage : Nat
  minAmountReceived : Nat
  swapsHash : Option Bytes := none
  deriving DecidableEq, Repr

/-- A call of the router, ready to be sent. -/
structure Transaction where
  toAddress : Bytes
  value : Nat
  data : Bytes
  clientFeeSignatureOffset : Option Nat := none
  deriving DecidableEq, Repr

/-- What one order is quoted. The last three fields are those that encoding fills. -/
structure OrderQuote (P : Type) where
  orderId : String := ""
  status : QuoteStatus
  route : Option (Route P)
  amountIn : Nat
  amountOut : Nat
  gasEstimate : Nat
  amountOutNetGas : Nat
  sender : Bytes
  receiver : Bytes
  noRouteCause : Option SolveError := none
  surplus : Option SurplusInfo := none
  transaction : Option Transaction := none
  feeBreakdown : Option FeeBreakdown := none
  subsidyAmount : Option Nat := none

/-- The amount an exclusive route commits to pay, and what the route it was measured against
pays. -/
structure Commitment where
  committedAmountOut : Nat
  referenceAmountOut : Nat
  deriving DecidableEq, Repr

/-- A route with its output net of gas, the gas price it was priced at, and the amount it commits
to pay, if a post-processor put an exclusive leg into it. -/
structure RouteResult (P : Type) where
  route : Route P
  netAmountOut : Int
  gasPrice : Nat
  commitment : Option Commitment := none

end Fynd
