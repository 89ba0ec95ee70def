import Fynd.Split.Amounts

/-!
# Replaying a route

The swaps run in the order of the route. A swap with a positive split takes that fraction
of what its token had collected when it was first taken. Any other swap takes what remains.
-/

namespace Fynd

open Foundation

variable {P : Type}

/-- Why a route could not be replayed. -/
inductive ReplayError
  | emptyRoute
  | missingState (componentId : ComponentId)
  | missingToken (address : Address)
  | simulation (componentId : ComponentId) (error : String)
  deriving DecidableEq, Repr

/-- The amounts and the gas of one simulated swap. -/
structure SimulatedSwap where
  amountIn : Nat
  amountOut : Nat
  gas : Nat
  deriving DecidableEq, Repr

/-- The simulated swaps in order, what came out in all, and the gas. -/
structure SimulatedRoute where
  swaps : List SimulatedSwap
  amountOut : Nat
  gas : Nat
  deriving DecidableEq, Repr

/-- Where a simulation starts, with how much, and where it ends. -/
structure SimulationEnds where
  inputToken : Address
  outputToken : Address
  totalIn : Nat

/-- The final output and the gas of a replay. -/
structure RouteReplay where
  amountOut : Nat
  gas : Nat
  deriving DecidableEq, Repr

/-- A simulation in progress. -/
structure Simulation (P : Type) where
  /-- What stands at each token. -/
  available : Map Address Nat
  /-- What each token had collected when it was first taken. -/
  branchTotals : Map Address Nat
  postSwap : Map ComponentId P
  totalGas : Nat
  simulated : List SimulatedSwap

def Simulation.start (ends : SimulationEnds) : Simulation P where
  available := (∅ : Map Address Nat).insert ends.inputToken ends.totalIn
  branchTotals := ∅
  postSwap := ∅
  totalGas := 0
  simulated := []

/-- What a swap takes of what remains of its token. -/
def amountTaken (branchTotal remaining : Nat) (split : Binary64) : Nat :=
  if split.gt 0 then min (splitAmount branchTotal split).1 remaining else remaining

section Simulate

variable [ProtocolSim P] (getToken : Address → Option Token) (getState : Swap P → Option P)

/-- Runs one swap. A pool that ran before is asked in the state it was left in. -/
def simulateSwap (simulation : Simulation P) (swap : Swap P) :
    Except ReplayError (Simulation P) := do
  let tokenIn ← (getToken swap.tokenIn).elim (.error (.missingToken swap.tokenIn)) .ok
  let tokenOut ← (getToken swap.tokenOut).elim (.error (.missingToken swap.tokenOut)) .ok
  let remaining := balanceAt simulation.available swap.tokenIn
  let branchTotal := (simulation.branchTotals.lookup swap.tokenIn).getD remaining
  let amountIn := amountTaken branchTotal remaining swap.split
  let sim ← ((simulation.postSwap.lookup swap.componentId).or (getState swap)).elim
    (.error (.missingState swap.componentId)) .ok
  let result ← (getAmountOutGuarded sim amountIn tokenIn tokenOut).mapError
    (.simulation swap.componentId)
  return {
    available := credit (simulation.available.insert swap.tokenIn (remaining - amountIn))
      swap.tokenOut result.amount
    branchTotals := simulation.branchTotals.insert swap.tokenIn branchTotal
    postSwap := simulation.postSwap.insert swap.componentId result.newState
    totalGas := simulation.totalGas + result.gas
    simulated := simulation.simulated ++ [⟨amountIn, result.amount, result.gas⟩] }

/-- Runs the swaps in order. -/
def simulateAll (swaps : List (Swap P)) (simulation : Simulation P) :
    Except ReplayError (Simulation P) :=
  swaps.foldlM (simulateSwap getToken getState) simulation

/-- Runs the swaps between the given ends. -/
def simulateSwaps (swaps : List (Swap P)) (ends : SimulationEnds) :
    Except ReplayError SimulatedRoute := do
  let final ← simulateAll getToken getState swaps (.start ends)
  return ⟨final.simulated, balanceAt final.available ends.outputToken, final.totalGas⟩

/-- Replays a route on a market. -/
def replayRoute (route : Route P) (market : MarketState P) : Except ReplayError RouteReplay :=
  match route.inputToken, route.outputToken with
  | some inputToken, some outputToken => do
      let totalIn := ((route.swaps.filter fun swap => swap.tokenIn = inputToken).map
        Swap.amountIn).sum
      let simulated ← simulateSwaps market.getToken
        (fun swap => market.getSimulationState swap.componentId) route.swaps
        ⟨inputToken, outputToken, totalIn⟩
      return ⟨simulated.amountOut, simulated.gas⟩
  | _, _ => .error .emptyRoute

end Simulate

end Fynd
