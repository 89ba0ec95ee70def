import Fynd.BellmanFord.Context
import Fynd.Split.Amounts

/-!
# Executing a split over several paths

Paths that make the same swap share it. The merged swaps run token by token: a token is
released once every swap that pays it has run, and what stands there is divided between the
swaps that take it. A ledger keeps each path's own amount through its hops, and sets the
proportions.
-/

namespace Fynd

open Foundation

variable {P : Type}

/-- One leg of a path: the pool and the direction it trades. -/
structure HopDescriptor where
  componentId : ComponentId
  tokenIn : Token
  tokenOut : Token
  deriving DecidableEq, Repr

/-- A hop with what it paid when it was simulated. -/
structure SimulatedHop where
  descriptor : HopDescriptor
  amountOut : Nat
  gas : Nat
  deriving DecidableEq, Repr

/-- One path of a split and what it carries. -/
structure PathAllocation where
  hops : List SimulatedHop
  flowFraction : Binary64
  amountIn : Nat
  amountOut : Nat
  marginalPriceProduct : Binary64
  deriving DecidableEq, Repr

/-- What makes two hops the same swap: one pool, taken in one direction. -/
abbrev HopKey := ComponentId × Address × Address

def hopKey (hop : HopDescriptor) : HopKey :=
  (hop.componentId, hop.tokenIn.address, hop.tokenOut.address)

/-- A merged swap with the share of its token that it takes. -/
structure SplitSwap where
  hop : HopDescriptor
  split : Binary64
  amountIn : Nat
  deriving DecidableEq, Repr

/-- A merged swap that ran, with the pool state it ran on if that is kept. -/
structure SimulatedSplitSwap (P : Type) where
  hop : HopDescriptor
  split : Binary64
  amountIn : Nat
  amountOut : Nat
  gas : Nat
  preSwapState : Option P

/-- Whether a plan keeps the pool state each swap ran on. -/
inductive StateCapture
  | skip
  | keep
  deriving DecidableEq, Repr

/-- What executing a split gives. -/
structure SplitExecution (P : Type) where
  swaps : List (SimulatedSplitSwap P)
  available : Map Address Nat
  postSwap : MarketOverrides P
  totalGas : Nat

/-! ## Paths and merged swaps -/

section Paths

variable (display : Address → String)

/-- Checks that no token repeats along the hops, but for a last one that is the first. -/
def checkHopTokens (firstToken : Address) :
    Nat → List Address → List SimulatedHop → Except AlgorithmError Unit
  | _, _, [] => .ok ()
  | i, seen, hop :: rest =>
    let outAddress := hop.descriptor.tokenOut.address
    if outAddress ∈ seen then
      if rest.isEmpty && outAddress = firstToken then checkHopTokens firstToken (i + 1) seen rest
      else .error (.other ("path revisits token " ++ display outAddress ++ " at hop " ++
        toString i ++ " (would corrupt merge_shared_hops)"))
    else checkHopTokens firstToken (i + 1) (outAddress :: seen) rest

/-- Checks that a path has hops and revisits no token. -/
def PathAllocation.validateTokenCycles (path : PathAllocation) : Except AlgorithmError Unit :=
  match path.hops with
  | [] => .error (.other "path has no hops")
  | first :: rest =>
    let firstToken := first.descriptor.tokenIn.address
    checkHopTokens display firstToken 0 [firstToken] (first :: rest)

end Paths

/-- Adds a hop unless its key is known. -/
def noteHop (hops : Map HopKey SplitSwap) (hop : SimulatedHop) : Map HopKey SplitSwap :=
  if (hops.lookup (hopKey hop.descriptor)).isSome then hops
  else hops.insert (hopKey hop.descriptor) ⟨hop.descriptor, 0, 0⟩

/-- Every hop of the paths once, by its key. -/
def mergedHops (paths : List PathAllocation) : Map HopKey SplitSwap :=
  (paths.flatMap PathAllocation.hops).foldl noteHop ∅

/-- The order of merged swaps that take one token: by component, then by tokens. -/
def precedes (left right : SplitSwap) : Prop :=
  left.hop.componentId < right.hop.componentId ∨
    left.hop.componentId = right.hop.componentId ∧
      (left.hop.tokenIn.address < right.hop.tokenIn.address ∨
        left.hop.tokenIn.address = right.hop.tokenIn.address ∧
          left.hop.tokenOut.address ≤ right.hop.tokenOut.address)

instance : DecidableRel precedes := fun _ _ => inferInstanceAs (Decidable (_ ∨ _))

/-- Adds a merged swap to those that take its token. -/
def addToBranch (branches : Map Address (List SplitSwap)) (swap : SplitSwap) :
    Map Address (List SplitSwap) :=
  branches.insert swap.hop.tokenIn.address
    ((branches.lookup swap.hop.tokenIn.address).getD [] ++ [swap])

/-- The merged swaps by the token they take. -/
def mergeSharedHops (paths : List PathAllocation) : Map Address (List SplitSwap) :=
  mapValues (List.insertionSort precedes)
    (((mergedHops paths).entries.map Sigma.snd).foldl addToBranch ∅)

/-- All merged swaps. -/
def waiting (hopsByToken : Map Address (List SplitSwap)) : List SplitSwap :=
  hopsByToken.entries.flatMap Sigma.snd

/-- Counts the tokens that the swaps of one token pay. -/
def countBranch (inDegree : Map Address Nat) (branch : Sigma fun _ : Address => List SplitSwap) :
    Map Address Nat :=
  branch.2.foldl (fun inDegree swap => credit inDegree swap.hop.tokenOut.address 1)
    (credit inDegree branch.1 0)

/-- How many merged swaps pay each token. -/
def buildInDegree (hopsByToken : Map Address (List SplitSwap)) : Map Address Nat :=
  hopsByToken.entries.foldl countBranch ∅

/-! ## Dividing a balance between swaps -/

/-- Turns the amounts swaps ask for into fractions of what stands at their token, and back into
the amounts the fractions give. The largest goes first, and the last takes what is left. -/
def splitsFromAmounts (hops : List SplitSwap) (totalAvailable : Nat) :
    Except AlgorithmError (List SplitSwap) :=
  let sorted := hops.insertionSort fun left right => right.amountIn ≤ left.amountIn
  let last := sorted.length - 1
  let fractions := sorted.zipIdx.map fun (swap, ix) =>
    if ix = last then 0 else shareOf swap.amountIn totalAvailable
  match fractionsToAmounts totalAvailable fractions with
  | .error error => .error (.other ("cannot divide the " ++ toString totalAvailable ++
      " standing at this token between " ++ toString fractions.length ++ " swaps: " ++
        error.message))
  | .ok amounts => .ok ((sorted.zip (fractions.zip amounts)).map fun (swap, split, amount) =>
    { swap with split := split, amountIn := amount })

/-- What each path carries, and how many of its hops it has made. -/
structure PathLedger where
  amountIn : List Nat
  nextHopIx : List Nat
  deriving DecidableEq, Repr

namespace PathLedger

/-- Starts each path on its amount. -/
def new (paths : List PathAllocation) : Except AlgorithmError PathLedger :=
  let amountIn := paths.map PathAllocation.amountIn
  if amountIn.all (· = 0) then
    .error (.other
      "cannot divide the order across these paths: every path carries a zero amount")
  else .ok ⟨amountIn, List.replicate paths.length 0⟩

section

variable (ledger : PathLedger)

/-- The paths that stand at a token, by the swap each is about to make. -/
def standingAt (paths : List PathAllocation) (token : Address) : Map HopKey (List Nat) :=
  paths.zipIdx.foldl (fun byHop (path, pathIx) =>
    match path.hops[ledger.nextHopIx.getD pathIx 0]? with
    | none => byHop
    | some hop =>
      if hop.descriptor.tokenIn.address = token then
        byHop.insert (hopKey hop.descriptor)
          ((byHop.lookup (hopKey hop.descriptor)).getD [] ++ [pathIx])
      else byHop) ∅

/-- What the paths that feed a swap carry. -/
def fedAmounts (fed : List Nat) : List Nat :=
  fed.map fun pathIx => ledger.amountIn.getD pathIx 0

def fedTotal (fed : List Nat) : Nat := (ledger.fedAmounts fed).sum

/-- Divides a total between the paths that fed a swap. -/
def rescale (fed : List Nat) (total : Nat) : PathLedger :=
  { ledger with
    amountIn := (fed.zip (shareOutput total (ledger.fedAmounts fed))).foldl
      (fun amounts (pathIx, share) => amounts.set pathIx share) ledger.amountIn }

/-- Moves the paths that fed a swap to their next hop. -/
def advance (fed : List Nat) : PathLedger :=
  { ledger with
    nextHopIx := fed.foldl (fun next pathIx => next.modify pathIx (· + 1)) ledger.nextHopIx }

end

end PathLedger

/-- A swap with the paths that feed it. -/
abbrev SizedSwap := SplitSwap × List Nat

/-- Sizes the swaps of one token and pairs each with the paths that feed it. -/
def amountsForBranch (branch : List SplitSwap) (standing : Map HopKey (List Nat))
    (ledger : PathLedger) (total : Nat) : Except AlgorithmError (List SizedSwap) := do
  let sized ← branch.mapM fun splitSwap =>
    match standing.lookup (hopKey splitSwap.hop) with
    | none => .error (.other ("no path feeds the swap through " ++ splitSwap.hop.componentId ++
        " at this point in the plan"))
    | some fed => .ok { splitSwap with amountIn := ledger.fedTotal fed }
  let divided ← splitsFromAmounts sized total
  return divided.map fun splitSwap =>
    (splitSwap, (standing.lookup (hopKey splitSwap.hop)).getD [])

/-! ## Running the swaps -/

/-- A plan in progress. -/
structure PlanState (P : Type) where
  hopsByToken : Map Address (List SplitSwap)
  inDegree : Map Address Nat
  ready : List Address
  ledger : PathLedger
  balances : Map Address Nat
  swaps : List (SimulatedSplitSwap P)
  postSwap : MarketOverrides P
  totalGas : Nat

/-- Takes what a swap spends out of its token. -/
def spend (symbol : Token → String) (balances : Map Address Nat) (token : Token)
    (componentId : ComponentId) (amount : Nat) : Except AlgorithmError (Map Address Nat) :=
  let standing := balanceAt balances token.address
  if standing < amount then
    .error (.other ("the swap through " ++ componentId ++ " spends " ++ toString amount ++ " " ++
      symbol token ++ ", more than the " ++ toString standing ++ " standing at it"))
  else .ok (balances.insert token.address (standing - amount))

section Plan

variable [ProtocolSim P] (display : Address → String) (symbol : Token → String)
  (paths : List PathAllocation) (market : MarketState P)
  (baseOverrides : MarketOverrides P) (capture : StateCapture)

/-- Simulates a merged swap on the freshest state known of its pool. -/
def runMergedSwap (swap : SplitSwap) (postSwap : MarketOverrides P) :
    Except AlgorithmError (SimulatedSplitSwap P × P) := do
  let sim ← (((postSwap.lookup swap.hop.componentId).or
      (baseOverrides.lookup swap.hop.componentId)).or
        (market.getSimulationState swap.hop.componentId)).elim
    (.error (.dataNotFound "simulation state" (some swap.hop.componentId))) .ok
  let result ← (getAmountOutGuarded sim swap.amountIn swap.hop.tokenIn swap.hop.tokenOut).mapError
    (.simulationFailed swap.hop.componentId)
  return (⟨swap.hop, swap.split, swap.amountIn, result.amount, result.gas,
    if capture = .keep then some sim else none⟩, result.newState)

/-- Notes that a swap that pays a token ran. The last one releases the token. -/
def release (inDegree : Map Address Nat) (ready : List Address) (token : Address) :
    Map Address Nat × List Address :=
  match inDegree.lookup token with
  | none => (inDegree, ready)
  | some degree =>
    (inDegree.insert token (degree - 1), if degree - 1 = 0 then ready ++ [token] else ready)

/-- Runs one sized swap. -/
def runSwap (state : PlanState P) (sized : SizedSwap) :
    Except AlgorithmError (PlanState P) := do
  let (splitSwap, fed) := sized
  let tokenOut := splitSwap.hop.tokenOut.address
  let balances ← spend symbol state.balances splitSwap.hop.tokenIn splitSwap.hop.componentId
    splitSwap.amountIn
  let (executed, newState) ← runMergedSwap market baseOverrides capture splitSwap state.postSwap
  let released := release state.inDegree state.ready tokenOut
  return { state with
    inDegree := released.1
    ready := released.2
    ledger := (state.ledger.rescale fed executed.amountOut).advance fed
    balances := credit balances tokenOut executed.amountOut
    swaps := state.swaps ++ [executed]
    postSwap := state.postSwap.insert splitSwap.hop.componentId newState
    totalGas := min (2 ^ 64 - 1) (state.totalGas + min (2 ^ 64 - 1) executed.gas) }

/-- Runs the swaps that take a token that was released. -/
def runBranch (state : PlanState P) (token : Address) (branch : List SplitSwap) :
    Except AlgorithmError (PlanState P) := do
  let standing := state.ledger.standingAt paths token
  let sized ← amountsForBranch branch standing state.ledger (balanceAt state.balances token)
  let ledger := sized.foldl (fun ledger (splitSwap, fed) => ledger.rescale fed splitSwap.amountIn)
    state.ledger
  sized.foldlM (runSwap symbol market baseOverrides capture) { state with ledger := ledger }

/-- Runs the released tokens in turn, so many at most. -/
def runReady : Nat → PlanState P → Except AlgorithmError (PlanState P)
  | 0, state => .ok state
  | fuel + 1, state =>
    match state.ready with
    | [] => .ok state
    | token :: ready =>
      match state.hopsByToken.lookup token with
      | none => runReady fuel { state with ready := ready }
      | some branch => do
          let next ← runBranch symbol paths market baseOverrides capture
            { state with ready := ready, hopsByToken := state.hopsByToken.erase token }
            token branch
          runReady fuel next

/-- Simulates a split from the start token to its outputs. -/
def executeSplitPlan (startToken : Address) (startAmount : Nat) :
    Except AlgorithmError (SplitExecution P) := do
  paths.forM (PathAllocation.validateTokenCycles display)
  let hopsByToken := mergeSharedHops paths
  let ledger ← PathLedger.new paths
  let final ← runReady symbol paths market baseOverrides capture
    ((waiting hopsByToken).length + 1)
    { hopsByToken := hopsByToken
      inDegree := buildInDegree hopsByToken
      ready := [startToken]
      ledger := ledger
      balances := (∅ : Map Address Nat).insert startToken startAmount
      swaps := []
      postSwap := ∅
      totalGas := 0 }
  if final.hopsByToken.entries.isEmpty then
    return ⟨final.swaps, final.balances, final.postSwap, final.totalGas⟩
  else
    .error (.other ("dependency cycle — unprocessed tokens: [" ++
      String.intercalate ", " (final.hopsByToken.keys.map display) ++ "]"))

end Plan

/-! ## The output of a split -/

/-- Paths with shares as allocations. What a simulation would fill in is left empty. -/
def allocationsFromDescriptors (paths : List (List HopDescriptor)) (fractions : List Binary64)
    (totalAmount : Nat) : Except AlgorithmError (List PathAllocation) := do
  if paths.length ≠ fractions.length then
    .error (.other ("paths/fractions length mismatch: " ++ toString paths.length ++ " paths, " ++
      toString fractions.length ++ " fractions"))
  else
    let amounts ← (fractionsToAmounts totalAmount fractions).mapError fun error =>
      .other error.message
    (paths.zip (fractions.zip amounts)).mapM fun (path, flowFraction, amountIn) =>
      if path.isEmpty then .error (.other "path has no hops")
      else .ok ⟨path.map fun descriptor => ⟨descriptor, 0, 0⟩, flowFraction, amountIn, 0, 0⟩

/-- What paths pay at their shares, and the gas of their swaps. -/
def evaluateTotalOutput [ProtocolSim P] (display : Address → String)
    (symbol : Token → String) (paths : List (List HopDescriptor)) (fractions : List Binary64)
    (totalAmount : Nat) (market : MarketState P) (overrides : MarketOverrides P) :
    Except AlgorithmError (Nat × Nat) := do
  let firstHop ← (paths.head?.bind List.head?).elim
    (.error (.other "paths must not be empty")) .ok
  let terminalTokens ← paths.mapM fun path =>
    path.getLast?.elim (.error (.other "path has no hops")) fun hop => .ok hop.tokenOut.address
  let allocations ← allocationsFromDescriptors paths fractions totalAmount
  let execution ← executeSplitPlan display symbol allocations market overrides .skip
    firstHop.tokenIn.address totalAmount
  return ((terminalTokens.dedup.map (balanceAt execution.available)).sum, execution.totalGas)

end Fynd
