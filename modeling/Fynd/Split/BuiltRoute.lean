import Fynd.BellmanFord.RouteBuilding
import Fynd.Split.PlanReleases

/-!
# The route of a split

A split is executed once more, with the pool states kept, and every swap that ran is emitted
in the order it ran in. The output that a split is scored by comes from the same plan.
-/

namespace Fynd

open Foundation List

variable {P : Type}

/-! ## Assembling the route -/

/-- The swap of the route for a merged swap that ran. -/
def emitSwap (market : MarketState P) (executed : SimulatedSplitSwap P) :
    Except AlgorithmError (Swap P) := do
  let component ← require "protocol component" executed.hop.componentId
    (market.getComponent executed.hop.componentId)
  let preSwapState ← executed.preSwapState.elim
    (.error (.other ("the plan kept no state for the swap through " ++ executed.hop.componentId)))
    .ok
  return {
    componentId := executed.hop.componentId
    protocol := component.protocolSystem
    tokenIn := executed.hop.tokenIn.address
    tokenOut := executed.hop.tokenOut.address
    amountIn := executed.amountIn
    amountOut := executed.amountOut
    gasEstimate := executed.gas
    protocolComponent := component
    protocolState := preSwapState
    split := executed.split }

/-- The route of a split of an order. -/
def buildSplitRoute [ProtocolSim P] (display : Address → String)
    (symbol : Token → String) (paths : List PathAllocation) (market : MarketState P)
    (order : Order) : Except AlgorithmError (Route P) := do
  let execution ← executeSplitPlan display symbol paths market ∅ .keep order.tokenIn order.amount
  let swaps ← execution.swaps.mapM (emitSwap market)
  let routeTokens := execution.swaps.foldl (fun tokens executed =>
    insertToken (insertToken tokens executed.hop.tokenIn) executed.hop.tokenOut) ∅
  Route.new swaps routeTokens

/-- A swap of the route carries what its merged swap ran with. -/
structure Emits (executed : SimulatedSplitSwap P) (swap : Swap P) : Prop where
  componentId : swap.componentId = executed.hop.componentId
  tokenIn : swap.tokenIn = executed.hop.tokenIn.address
  tokenOut : swap.tokenOut = executed.hop.tokenOut.address
  split : swap.split = executed.split
  amountIn : swap.amountIn = executed.amountIn
  amountOut : swap.amountOut = executed.amountOut

private theorem emitSwap_eq_ok {market : MarketState P} {executed : SimulatedSplitSwap P}
    {swap : Swap P} (emitted : emitSwap market executed = .ok swap) : Emits executed swap := by
  obtain ⟨component, _, rest⟩ := bind_eq_ok_iff.mp emitted
  obtain ⟨preSwapState, _, done⟩ := bind_eq_ok_iff.mp rest
  cases done
  exact ⟨rfl, rfl, rfl, rfl, rfl, rfl⟩

section

variable [ProtocolSim P] {display : Address → String} {symbol : Token → String}
  {paths : List PathAllocation} {market : MarketState P} {order : Order}
  {route : Route P} (built : buildSplitRoute display symbol paths market order = .ok route)
include built

/-- A route that is built emits the swaps of the plan. -/
theorem buildSplitRoute_eq_ok : ∃ execution,
      executeSplitPlan display symbol paths market ∅ .keep order.tokenIn order.amount =
        .ok execution ∧
      List.Forall₂ Emits execution.swaps route.swaps ∧ route.swaps ≠ [] := by
  obtain ⟨execution, executed, rest⟩ := bind_eq_ok_iff.mp built
  obtain ⟨swaps, emitted, made⟩ := bind_eq_ok_iff.mp rest
  obtain ⟨rfl, nonempty⟩ := Route.new_eq_ok made
  exact ⟨execution, executed, (mapM_eq_ok_iff.mp emitted).imp fun _ _ => emitSwap_eq_ok, nonempty⟩

theorem keyedTokens_of_buildSplitRoute : KeyedTokens route.tokens := by
  obtain ⟨execution, -, rest⟩ := bind_eq_ok_iff.mp built
  obtain ⟨swaps, -, made⟩ := bind_eq_ok_iff.mp rest
  obtain ⟨rfl, -⟩ := Route.new_eq_ok made
  exact keyedTokens_foldl (fun executed => executed.hop.tokenIn)
    (fun executed => executed.hop.tokenOut) execution.swaps

end

/-! ## What a plan reads of its paths -/

/-- A path without what its simulation filled in. -/
def PathAllocation.bare (path : PathAllocation) : PathAllocation where
  hops := path.hops.map fun hop => ⟨hop.descriptor, 0, 0⟩
  flowFraction := 0
  amountIn := path.amountIn
  amountOut := 0
  marginalPriceProduct := 0

private theorem checkHopTokens_bare (display : Address → String) (firstToken : Address) (i : Nat)
    (seen : List Address) (hops : List SimulatedHop) :
    checkHopTokens display firstToken i seen (hops.map fun hop => ⟨hop.descriptor, 0, 0⟩) =
      checkHopTokens display firstToken i seen hops := by
  induction hops generalizing i seen with
  | nil => rfl
  | cons hop rest ih =>
    rw [map_cons, checkHopTokens, checkHopTokens, ih, ih, isEmpty_map]

private theorem validateTokenCycles_bare (display : Address → String) (path : PathAllocation) :
    path.bare.validateTokenCycles display = path.validateTokenCycles display := by
  unfold PathAllocation.validateTokenCycles PathAllocation.bare
  cases path.hops with
  | nil => rfl
  | cons first rest => exact checkHopTokens_bare display _ 0 _ (first :: rest)

private theorem mergedHops_bare (paths : List PathAllocation) :
    mergedHops (paths.map PathAllocation.bare) = mergedHops paths := by
  have hops : (paths.map PathAllocation.bare).flatMap PathAllocation.hops =
      (paths.flatMap PathAllocation.hops).map fun hop => ⟨hop.descriptor, 0, 0⟩ := by
    rw [flatMap_map, map_flatMap]
    rfl
  rw [mergedHops, hops, foldl_map]
  rfl

private theorem standingAt_bare (ledger : PathLedger) (paths : List PathAllocation)
    (token : Address) :
    ledger.standingAt (paths.map PathAllocation.bare) token = ledger.standingAt paths token := by
  unfold PathLedger.standingAt
  rw [zipIdx_map, foldl_map]
  congr 1
  funext byHop path
  obtain ⟨path, pathIx⟩ := path
  simp only [Prod.map_apply, id_eq, PathAllocation.bare, getElem?_map]
  cases path.hops[ledger.nextHopIx.getD pathIx 0]? <;> rfl

section Bare

variable [ProtocolSim P] (display : Address → String) (symbol : Token → String)
  (paths : List PathAllocation) (market : MarketState P)
  (baseOverrides : MarketOverrides P) (capture : StateCapture)

private theorem runReady_bare (fuel : Nat) (state : PlanState P) :
    runReady symbol (paths.map PathAllocation.bare) market baseOverrides capture fuel state =
      runReady symbol paths market baseOverrides capture fuel state := by
  induction fuel generalizing state with
  | zero => rfl
  | succ fuel ih =>
    simp only [runReady, runBranch, standingAt_bare, ih]

/-- **A plan reads the hops and the amounts of its paths, and nothing else.** -/
theorem executeSplitPlan_bare (startToken : Address) (startAmount : Nat) :
    executeSplitPlan display symbol (paths.map PathAllocation.bare) market baseOverrides capture
        startToken startAmount =
      executeSplitPlan display symbol paths market baseOverrides capture startToken
        startAmount := by
  have checks : (paths.map PathAllocation.bare).forM (PathAllocation.validateTokenCycles display) =
      paths.forM (PathAllocation.validateTokenCycles display) := by
    refine forM_map.trans ?_
    simp only [validateTokenCycles_bare]
    rfl
  have ledgers : PathLedger.new (paths.map PathAllocation.bare) = PathLedger.new paths := by
    unfold PathLedger.new
    rw [map_map, length_map]
    rfl
  unfold executeSplitPlan
  rw [checks, ledgers]
  simp only [runReady_bare, mergeSharedHops, mergedHops_bare]

end Bare

/-! ## What a plan keeps -/

/-- A swap without the pool state it ran on. -/
def SimulatedSplitSwap.forget (swap : SimulatedSplitSwap P) : SimulatedSplitSwap P :=
  { swap with preSwapState := none }

/-- A plan in progress that keeps no pool states. -/
def PlanState.forget (state : PlanState P) : PlanState P :=
  { state with swaps := state.swaps.map SimulatedSplitSwap.forget }

section Forget

variable [ProtocolSim P] (symbol : Token → String) (paths : List PathAllocation)
  (market : MarketState P) (baseOverrides : MarketOverrides P)

private theorem runMergedSwap_forget (swap : SplitSwap) (postSwap : MarketOverrides P) :
    runMergedSwap market baseOverrides .skip swap postSwap =
      (runMergedSwap market baseOverrides .keep swap postSwap).map fun ran =>
        (ran.1.forget, ran.2) := by
  unfold runMergedSwap
  cases ((postSwap.lookup swap.hop.componentId).or
      (baseOverrides.lookup swap.hop.componentId)).or
        (market.getSimulationState swap.hop.componentId) with
  | none => rfl
  | some sim =>
    cases answer : getAmountOutGuarded sim swap.amountIn swap.hop.tokenIn swap.hop.tokenOut with
    | error error => simp [answer, Except.mapError, bind, Except.bind, Except.map]
    | ok result =>
      simp [answer, Except.mapError, bind, Except.bind, pure, Except.pure, Except.map,
        SimulatedSplitSwap.forget]

private theorem runSwap_forget (state : PlanState P) (sized : SizedSwap) :
    runSwap symbol market baseOverrides .skip state.forget sized =
      (runSwap symbol market baseOverrides .keep state sized).map PlanState.forget := by
  obtain ⟨swap, fed⟩ := sized
  unfold runSwap
  dsimp only [PlanState.forget]
  cases spend symbol state.balances swap.hop.tokenIn swap.hop.componentId swap.amountIn with
  | error error => rfl
  | ok balances =>
    rw [runMergedSwap_forget]
    cases runMergedSwap market baseOverrides .keep swap state.postSwap with
    | error error => rfl
    | ok ran =>
      simp [bind, Except.bind, pure, Except.pure, Except.map, PlanState.forget,
        SimulatedSplitSwap.forget]

private theorem runBranch_forget (state : PlanState P) (token : Address) (branch : List SplitSwap) :
    runBranch symbol paths market baseOverrides .skip state.forget token branch =
      (runBranch symbol paths market baseOverrides .keep state token branch).map
        PlanState.forget := by
  unfold runBranch
  dsimp only [PlanState.forget]
  cases amountsForBranch branch (state.ledger.standingAt paths token) state.ledger
      (balanceAt state.balances token) with
  | error error => rfl
  | ok sized =>
    exact foldlM_map_state (runSwap_forget symbol market baseOverrides) sized
      ((⟨state, token, branch⟩ : Release P).opened sized)

private theorem runReady_forget (fuel : Nat) (state : PlanState P) :
    runReady symbol paths market baseOverrides .skip fuel state.forget =
      (runReady symbol paths market baseOverrides .keep fuel state).map PlanState.forget := by
  induction fuel generalizing state with
  | zero => rfl
  | succ fuel ih =>
    unfold runReady
    obtain ⟨hopsByToken, inDegree, ready, ledger, balances, swaps, postSwap, totalGas⟩ := state
    cases ready with
    | nil => rfl
    | cons token ready =>
      dsimp only [PlanState.forget]
      cases hopsByToken.lookup token with
      | none =>
        exact ih ⟨hopsByToken, inDegree, ready, ledger, balances, swaps, postSwap, totalGas⟩
      | some branch =>
        have forgets := runBranch_forget symbol paths market baseOverrides
          ⟨hopsByToken.erase token, inDegree, ready, ledger, balances, swaps, postSwap,
            totalGas⟩ token branch
        dsimp only [PlanState.forget] at forgets ⊢
        rw [forgets]
        cases runBranch symbol paths market baseOverrides .keep
          ⟨hopsByToken.erase token, inDegree, ready, ledger, balances, swaps, postSwap,
            totalGas⟩ token branch with
        | error error => rfl
        | ok next => exact ih next

/-- **The scored plan is the emitted plan.** A plan that keeps no pool states leaves the same
balances and takes the same gas. -/
theorem executeSplitPlan_forget (display : Address → String) {startToken : Address}
    {startAmount : Nat} {execution : SplitExecution P}
    (executed : executeSplitPlan display symbol paths market baseOverrides .keep startToken
      startAmount = .ok execution) :
    executeSplitPlan display symbol paths market baseOverrides .skip startToken startAmount =
      .ok { execution with swaps := execution.swaps.map SimulatedSplitSwap.forget } := by
  obtain ⟨⟨⟩, valid, rest⟩ := bind_eq_ok_iff.mp executed
  obtain ⟨ledger, divides, rest⟩ := bind_eq_ok_iff.mp rest
  obtain ⟨final, run, rest⟩ := bind_eq_ok_iff.mp rest
  have forgets := runReady_forget symbol paths market baseOverrides
    ((waiting (mergeSharedHops paths)).length + 1)
    ⟨mergeSharedHops paths, buildInDegree (mergeSharedHops paths), [startToken], ledger,
      (∅ : Map Address Nat).insert startToken startAmount, [], ∅, 0⟩
  rw [run] at forgets
  dsimp only [PlanState.forget, Except.map] at forgets
  rw [map_nil] at forgets
  unfold executeSplitPlan
  rw [valid]
  dsimp only [bind, Except.bind]
  rw [divides]
  dsimp only
  split at rest
  · rename_i done
    cases rest
    rw [forgets]
    dsimp only
    rw [if_pos done]
    rfl
  · cases rest

end Forget

end Fynd
