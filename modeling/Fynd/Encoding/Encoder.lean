import Fynd.Encoding.ExclusiveSwap
import Fynd.Exclusive.Commitment
import Fynd.Router.PriceGuard

/-!
# The encoder

A quote becomes a solution the router can execute: the fees set the floor it must pay,
each swap of the route becomes a swap of the solution, and each leg with a committed
amount gets user data that the controller signs. The embedder's hook runs last and may
change two fields only.
-/

namespace Fynd

open Foundation

variable {P F : Type} [Double F]

/-! ## Fees -/

/-- The router fees of one client and the units they are given in. -/
structure FeeRates where
  onOutput : Nat
  onClientFee : Nat
  maxFeeUnits : Nat
  deriving DecidableEq, Repr

namespace FeeRates

/-- Fee units in a basis point. -/
def feeUnitsPerBps (rates : FeeRates) : Nat := rates.maxFeeUnits / 10000

/-- A client fee in fee units. -/
def clientFeeUnits (rates : FeeRates) (bps : Nat) : Nat := bps * rates.feeUnitsPerBps % 2 ^ 64

end FeeRates

/-- The router fees: the defaults and the rates of single clients. -/
structure RouterFees where
  maxFeeUnits : Nat
  defaultFeeOnOutput : Nat
  defaultFeeOnClientFee : Nat
  customFees : Map Bytes (Nat × Nat)

/-- The fee rates of a client. -/
def RouterFees.feesFor (fees : RouterFees) (client : Bytes) : FeeRates :=
  let rates := (fees.customFees.lookup client).getD
    (fees.defaultFeeOnOutput, fees.defaultFeeOnClientFee)
  ⟨rates.1, rates.2, fees.maxFeeUnits⟩

/-- A subtraction that panics below zero. -/
def subOrPanic (left right : Nat) : Except SolveError Nat :=
  (checkedSub left right).elim (.error (.panicked "attempt to subtract with overflow")) .ok

/-- The router's fee and the client's portion of an output. -/
def calculateFees (swapOutput clientFeeBps : Nat) (rates : FeeRates) :
    Except SolveError (Nat × Nat) :=
  let scaledClientFee := rates.clientFeeUnits clientFeeBps
  if (scaledClientFee + rates.onOutput) % 2 ^ 64 ≥ rates.maxFeeUnits then
    .error (.failedEncoding ("client fee (" ++ toString clientFeeBps ++
      " bps) plus router fee on output (" ++ toString rates.onOutput ++ " fee units) reach the " ++
      toString rates.maxFeeUnits ++
      " fee-unit cap (100%); nothing would be left for the receiver"))
  else if rates.onClientFee > rates.maxFeeUnits then
    .error (.failedEncoding ("router fee on client fee (" ++ toString rates.onClientFee ++
      " fee units) exceeds the " ++ toString rates.maxFeeUnits ++
      " fee-unit cap (100%); the router would revert"))
  else do
    let numerator := swapOutput * scaledClientFee
    let routerFeeOnClient :=
      if scaledClientFee > 0 then numerator * rates.onClientFee / (rates.maxFeeUnits ^ 2) else 0
    let clientPortion ←
      if scaledClientFee > 0 then subOrPanic (numerator / rates.maxFeeUnits) routerFeeOnClient
      else .ok 0
    return (routerFeeOnClient + swapOutput * rates.onOutput / rates.maxFeeUnits, clientPortion)

/-- The fees of an output and the floor after fees and slippage. -/
def calculateFeeBreakdown (swapOutput clientFeeBps : Nat) (slippage : F) (rates : FeeRates) :
    Except SolveError FeeBreakdown := do
  let fees ← calculateFees swapOutput clientFeeBps rates
  let afterClient ← subOrPanic swapOutput fees.2
  let amountAfterFees ← subOrPanic afterClient fees.1
  let slippageAmount :=
    amountAfterFees * Double.toU64 (Double.mul slippage (Double.ofNat 1000000)) / 1000000
  let minAmountReceived ← subOrPanic amountAfterFees slippageAmount
  return { routerFee := fees.1, clientFee := fees.2, maxSlippage := slippageAmount,
           minAmountReceived := minAmountReceived }

/-- Rejects a floor of zero. -/
def checkMinAmountOut (minAmountOut : Nat) : Except SolveError Unit :=
  if minAmountOut = 0 then
    .error (.failedEncoding
      "minimum amount out is zero; the router rejects it. Reduce slippage or the client fee")
  else .ok ()

/-! ## Solutions -/

/-- How the router gets the user's tokens. -/
inductive UserTransferType
  | transferFrom
  | transferFromPermit2
  | useVaultsFunds
  deriving DecidableEq, Repr

/-- A value behind a shared pointer: where it is allocated, and the value. -/
structure Shared (Value : Type) where
  location : Nat
  value : Value

/-- A swap of a solution. -/
structure SolutionSwap (P : Type) where
  component : ProtocolComponent
  tokenIn : Token
  tokenOut : Token
  gasEstimate : Nat
  split : Binary64
  protocolState : Option (Shared P)
  estimatedAmountIn : Nat
  maxSignedQuoteShortfallBps : Option Nat := none
  userData : Option Bytes := none

/-- Terms of a subsidy that an embedder attaches and signs. -/
structure SubsidyTerms where
  amount : Nat
  signed : Bytes
  deriving DecidableEq, Repr

/-- What the router executes. -/
structure Solution (P : Type) where
  sender : Bytes
  receiver : Bytes
  tokenIn : Address
  tokenOut : Address
  amountIn : Nat
  expectedAmountOut : Nat
  minAmountOut : Nat
  swaps : List (SolutionSwap P)
  userTransferType : UserTransferType := .transferFrom
  origin : Option Bytes := none
  subsidy : Option SubsidyTerms := none

/-- The user data that names a fallback pool. -/
abbrev FallbackUserData (P : Type) :=
  FallbackLeg P → Address → Address → Except String Bytes

/-- A token of a route's token map. -/
def lookupToken (tokens : Map Address Token) (address : Address) : Except SolveError Token :=
  (tokens.lookup address).elim (.error (.failedEncoding ("token " ++ toString address ++
    " not found in route's token map; algorithm must pass every swap token to Route::new"))) .ok

/-- A swap of the route as a swap of the solution. Its state is copied to a place of its own, which
the position of the swap stands for. -/
def solutionSwap (fallbackUserData : FallbackUserData P) (tokens : Map Address Token)
    (maxSignedQuoteShortfallBps : Option Nat) (swap : Swap P) (position : Nat) :
    Except SolveError (SolutionSwap P) := do
  let tokenIn ← lookupToken tokens swap.tokenIn
  let tokenOut ← lookupToken tokens swap.tokenOut
  let built : SolutionSwap P :=
    { component := swap.protocolComponent
      tokenIn := tokenIn
      tokenOut := tokenOut
      gasEstimate := swap.gasEstimate
      split := swap.split
      protocolState := some ⟨position, swap.protocolState⟩
      estimatedAmountIn := swap.amountIn
      maxSignedQuoteShortfallBps := maxSignedQuoteShortfallBps }
  match swap.fallback with
  | none => return built
  | some fallback =>
    let userData ← (fallbackUserData fallback swap.tokenIn swap.tokenOut).mapError fun error =>
      SolveError.failedEncoding ("pAMM leg " ++ swap.componentId ++ ": " ++ error)
    return { built with userData := some userData }

/-- Maps a successful quote onto a solution with an explicit floor. -/
def solutionFromQuote (fallbackUserData : FallbackUserData P)
    (quote : OrderQuote P) (minAmountOut : Nat) (maxSignedQuoteShortfallBps : Option Nat) :
    Except SolveError (Solution P) :=
  if quote.status ≠ .success then
    .error (.failedEncoding
      ("cannot convert quote with status " ++ quote.status.name ++ " to Solution"))
  else do
    let route ← quote.route.elim
      (.error (.failedEncoding "successful quote must have a route")) .ok
    let tokenIn ← route.inputToken.elim (.error (.failedEncoding "route has no input token")) .ok
    let tokenOut ← route.outputToken.elim (.error (.failedEncoding "route has no output token")) .ok
    let swaps ← route.swaps.zipIdx.mapM fun entry =>
      solutionSwap fallbackUserData route.tokens maxSignedQuoteShortfallBps entry.1 entry.2
    return { sender := quote.sender, receiver := quote.receiver, tokenIn := tokenIn,
             tokenOut := tokenOut, amountIn := quote.amountIn,
             expectedAmountOut := quote.amountOut, minAmountOut := minAmountOut, swaps := swaps,
             origin := some quote.sender }

/-- A slippage fraction in whole basis points, clamped. -/
def slippageBps (slippage : F) : Nat :=
  let rounded := Double.round (Double.mul slippage (Double.ofNat 10000))
  Double.toU32 (if Double.lt rounded (Double.ofNat 0) then Double.ofNat 0
    else if Double.lt (Double.ofNat 10000) rounded then Double.ofNat 10000 else rounded)

/-- Gives one swap of the solution signed user data if its route swap carries a committed
amount. -/
def stampSwap (primitives : Primitives) (signer : ExclusiveSwapSigner) (slippage : F)
    (reading : Reading) (solutionSwap : SolutionSwap P) (routeSwap : Swap P) :
    Except SolveError (SolutionSwap P) :=
  if routeSwap.committedAmountOut.isSome then do
    let userData ← signer.buildUserData primitives reading routeSwap slippage
    return { solutionSwap with userData := some userData }
  else .ok solutionSwap

/-- Stamps the swaps of a solution, matched with the swaps of the route by position. -/
def stampSwaps (primitives : Primitives) (signer : ExclusiveSwapSigner) (slippage : F)
    (readings : Nat → Reading) : Nat → List (SolutionSwap P) → List (Swap P) →
      Except SolveError (List (SolutionSwap P))
  | position, built :: rest, swap :: others => do
      let stamped ← stampSwap primitives signer slippage (readings position) built swap
      let later ← stampSwaps primitives signer slippage readings (position + 1) rest others
      return stamped :: later
  | _, _, _ => .ok []

/-- Stamps signed user data onto each exclusive leg. The readings are those of the calls, by the
position of the leg. -/
def stampExclusiveSwaps (primitives : Primitives) (readings : Nat → Reading)
    (solution : Solution P) (quote : OrderQuote P) (signer : ExclusiveSwapSigner)
    (slippage : F) : Except SolveError (Solution P) := do
  let route ← quote.route.elim
    (.error (.failedEncoding "successful quote must have a route")) .ok
  if !route.hasExclusiveLeg then return solution
  else
    let swaps ← stampSwaps primitives signer slippage readings 0 solution.swaps route.swaps
    return { solution with swaps := swaps }

/-! ## Hooks and the whole preparation -/

/-- An embedder's change to a solution. -/
abbrev SolutionHook (P : Type) :=
  OrderQuote P → Solution P → Except SolveError (Solution P)

/-- What a value serializes to. -/
inductive Serialized (Value : Type)
  | object (fields : Map String Value)
  | other (text : String)

/-- How the encoder library serializes a solution. Whatever a solution holds, it has the same
fields, and one of them lists its swaps with their user data. -/
class SerializeSolution (P : Type) where
  Value : Type
  [decEq : DecidableEq Value]
  toValue : Solution P → Except String (Serialized Value)
  /-- The user data of the swaps that a value lists. -/
  userData : Value → List (Option Bytes)
  same_fields {original hooked : Solution P} {before after : Map String Value} :
    toValue original = .ok (.object before) → toValue hooked = .ok (.object after) →
    ∀ field ∈ after, field ∈ before
  lists_swaps {solution : Solution P} {fields : Map String Value} :
    toValue solution = .ok (.object fields) → ∃ value, fields.lookup "swaps" = some value ∧
      userData value = solution.swaps.map SolutionSwap.userData

section Hooks

variable [SerializeSolution P]

instance : DecidableEq (SerializeSolution.Value P) := SerializeSolution.decEq

/-- The serialized fields of a solution. -/
def Solution.serialize (solution : Solution P) :
    Except SolveError (Map String (SerializeSolution.Value P)) :=
  match SerializeSolution.toValue solution with
  | .ok (.object fields) => .ok fields
  | .ok (.other text) =>
    .error (.failedEncoding ("a tycho solution serialized to " ++ text ++
      " instead of an object; cannot check the solution hook's changes"))
  | .error error =>
    .error (.failedEncoding
      ("failed to serialize a tycho solution to check the solution hook's changes: " ++ error))

/-- Where the state of a swap is allocated, if it has one. -/
def SolutionSwap.stateLocation (swap : SolutionSwap P) : Option Nat :=
  swap.protocolState.map Shared.location

/-- The fields a hook may change. -/
def hookMutableFields : List String := ["expected_amount_out", "subsidy"]

/-- The name of the first field of the original outside the mutable ones in which the hooked
solution differs. The states of the swaps are not serialized; they are compared pair by pair, by
where they are. -/
def changedSolutionField (original hooked : Solution P) :
    Except SolveError (Option String) := do
  let before ← original.serialize
  let after ← hooked.serialize
  let changedField := (before.entries.find? fun entry =>
    entry.1 ∉ hookMutableFields && decide (after.lookup entry.1 ≠ some entry.2)).map fun entry =>
      entry.1
  if changedField.isSome then return changedField
  else
    let sameStates := (original.swaps.zip hooked.swaps).all fun pair =>
      pair.1.stateLocation = pair.2.stateLocation
    return if sameStates then none else some "swaps.protocol_state"

/-- Runs a hook and checks the solution it returns. -/
def applySolutionHook (hook : SolutionHook P) (quote : OrderQuote P)
    (solution : Solution P) : Except SolveError (Solution P) := do
  let hooked ← hook quote solution
  match ← changedSolutionField solution hooked with
  | some field =>
    .error (.failedEncoding ("the solution hook changed " ++ field ++
      "; it may change only " ++ ", ".intercalate hookMutableFields))
  | none =>
    if hooked.expectedAmountOut < solution.expectedAmountOut then
      .error (.failedEncoding ("the solution hook lowered expected_amount_out from " ++
        toString solution.expectedAmountOut ++ " to " ++ toString hooked.expectedAmountOut ++
        "; it may only raise it"))
    else return hooked

end Hooks

/-- A solution as the router's encoder returns it. -/
structure EncodedSolution where
  functionSignature : String
  swaps : Bytes
  estimatedGas : Nat

/-- An embedder's change to the calldata of a router call. -/
abbrev CalldataHook (P : Type) :=
  OrderQuote P → Solution P → EncodedSolution → Bytes → Except SolveError Bytes

/-- The client's fee and who receives it. -/
structure ClientFeeParams where
  bps : Nat
  receiver : Bytes

/-- What a request says about encoding. -/
structure EncodingOptions (P F : Type) where
  slippage : F
  transferType : UserTransferType
  clientFeeParams : Option ClientFeeParams
  solutionHook : Option (SolutionHook P)
  calldataHook : Option (CalldataHook P) := none
  calldataWatermark : Option Bytes := none
  jitRouter : Bool := false
  priceGuard : PriceGuardConfig := {}

/-- A solution ready to encode, with the fee figures of its router call. -/
structure PreparedSolution (P : Type) where
  solution : Solution P
  feeBreakdown : FeeBreakdown
  feeRates : FeeRates

/-- The client the router charges fees for. -/
def feeClient (options : EncodingOptions P F) (quote : OrderQuote P) : Bytes :=
  options.clientFeeParams.elim quote.sender ClientFeeParams.receiver

/-- The encoder of a chain: what comes from outside, the signer if a key is configured, and the
addresses of the routers that are deployed. Without the first of them nothing can be encoded. -/
structure Encoder (P : Type) where
  primitives : Primitives
  fallbackUserData : FallbackUserData P
  exclusiveSwapSigner : Option ExclusiveSwapSigner
  chain : String := ""
  routerAddress : Option Bytes := none
  jitRouterAddress : Option Bytes := none
  calldataWatermark : Option Bytes := none

namespace Encoder

/-- Signs the exclusive legs of a solution, or fails if there is one and no signer. -/
def signExclusiveLegs (encoder : Encoder P) (readings : Nat → Reading) (quote : OrderQuote P)
    (slippage : F) (solution : Solution P) : Except SolveError (Solution P) :=
  match encoder.exclusiveSwapSigner with
  | some signer =>
    stampExclusiveSwaps encoder.primitives readings solution quote signer slippage
  | none =>
    if quote.route.any Route.hasExclusiveLeg then
      .error (.failedEncoding ("quote routes through an exclusive pool but no signing key is " ++
        "configured (set EXCLUSIVE_SWAP_CONTROLLER_KEY)"))
    else .ok solution

/-- Builds the solution of one quote, with the floor the router checks and the signatures its
exclusive legs need. -/
def prepareSolution [SerializeSolution P] (encoder : Encoder P) (readings : Nat → Reading)
    (quote : OrderQuote P) (options : EncodingOptions P F) (routerFees : RouterFees) :
    Except SolveError (PreparedSolution P) := do
  let feeRates := routerFees.feesFor (feeClient options quote)
  let clientFeeBps := options.clientFeeParams.elim 0 ClientFeeParams.bps
  let feeBreakdown ← calculateFeeBreakdown quote.amountOut clientFeeBps options.slippage feeRates
  checkMinAmountOut feeBreakdown.minAmountReceived
  let built ← solutionFromQuote encoder.fallbackUserData quote feeBreakdown.minAmountReceived
    (some (slippageBps options.slippage))
  let solution ← encoder.signExclusiveLegs readings quote options.slippage
    { built with userTransferType := options.transferType }
  match options.solutionHook with
  | none => return ⟨solution, feeBreakdown, feeRates⟩
  | some hook =>
    let hooked ← applySolutionHook hook quote solution
    let fees ← calculateFees hooked.expectedAmountOut clientFeeBps feeRates
    return ⟨hooked, { feeBreakdown with routerFee := fees.1, clientFee := fees.2 }, feeRates⟩

end Encoder

end Fynd
