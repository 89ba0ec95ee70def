import Fynd.Foundation.BreadthFirst
import Fynd.Router.Solve
import Fynd.Split.Replay

/-!
# The search for replacements

A replacer is given a route and swaps without amounts, one for each component it may use. It
tries each swap in place of a target: one swap of the route, or the swaps between two tokens
that every path passes through. Round by round it keeps the replacement that nets most, until
none nets more than the route at hand. The search reads the clock on its way. It is given how
often it does so before the deadline passes.
-/

namespace Fynd

open Foundation List

variable {P : Type}

/-! ## What a replacer may use -/

/-- What a post-processor reads about a solve. -/
structure PostProcessRequest where
  order : Order
  constraints : ResolvedRouteConstraints
  dropsComponent : ProtocolComponent → Bool
  exclusiveAccess : ExclusiveAccess

/-- The components a replacer may use, by token. -/
structure ReplacementComponentIndex where
  byToken : Map Address (List ComponentId)
  tokensOf : Map ComponentId (List Address)

def ReplacementComponentIndex.isEmpty (index : ReplacementComponentIndex) : Bool :=
  index.tokensOf.entries.isEmpty

variable {view : MarketView P} {request : PostProcessRequest} {id : ComponentId} {swap : Swap P}
  {replacedIndices : List Nat} {index : ReplacementComponentIndex} {tokens : List Address}

variable (index tokens) in
/-- The components that hold at least two of some tokens, in id order. -/
def ReplacementComponentIndex.findTouching : List ComponentId :=
  let listed := (unseen [] tokens).map fun token => (index.byToken.lookup token).getD []
  ((unseen [] listed.flatten).filter fun id => 2 ≤ listed.countP fun ids => id ∈ ids).insertionSort
    (· ≤ ·)

/-- A component that stands under a token of the index. -/
def ReplacementComponentIndex.Lists (index : ReplacementComponentIndex) (id : ComponentId) : Prop :=
  ∃ token ids, index.byToken.lookup token = some ids ∧ id ∈ ids

theorem ReplacementComponentIndex.lists_of_mem_findTouching
    (member : id ∈ index.findTouching tokens) : index.Lists id := by
  have listed := (mem_filter.mp ((mem_insertionSort (· ≤ ·)).mp member)).1
  obtain ⟨ids, among, inside⟩ := mem_flatten.mp (mem_unseen.mp listed).1
  obtain ⟨token, _, rfl⟩ := mem_map.mp among
  cases found : index.byToken.lookup token with
  | none => simp [found] at inside
  | some ids => exact ⟨token, ids, found, by simpa [found] using inside⟩

/-- The swaps a search may use, and the tokens of the route. The token pair of a swap is set when
it is tried. -/
structure ReplacementLiquidity (P : Type) where
  swaps : List (Swap P)
  tokens : Map Address Token

variable (view request id) in
/-- A swap without amounts through a component, if the request and the pool allow it. -/
def unusedSwap :
    Option (Swap P) :=
  if request.constraints.excludesPool id then none
  else (view.getComponent id).bind fun component => (view.getSimulationState id).bind fun state =>
    match component.tokens with
    | tokenIn :: tokenOut :: _ =>
      if request.dropsComponent component then none
      else some
        { componentId := id, protocol := component.protocolSystem
          tokenIn := tokenIn, tokenOut := tokenOut, amountIn := 0, amountOut := 0
          gasEstimate := 0, protocolComponent := component, protocolState := state }
    | _ => none

/-- The swaps through the indexed components that touch a route, and the route's tokens. -/
def ReplacementLiquidity.fromMarketForRoute (index : ReplacementComponentIndex)
    (view : MarketView P) (request : PostProcessRequest) (route : Route P) :
    ReplacementLiquidity P :=
  let routeTokens := route.swaps.flatMap fun swap => [swap.tokenIn, swap.tokenOut]
  { swaps := (index.findTouching routeTokens).filterMap (unusedSwap view request)
    tokens := routeTokens.foldl (fun tokens address =>
      if (tokens.lookup address).isSome then tokens
      else (view.getToken address).elim tokens (tokens.insert address)) route.tokens }

theorem unusedSwap_eq_some (made : unusedSwap view request id = some swap) :
    view.getComponent id = some swap.protocolComponent ∧
      request.dropsComponent swap.protocolComponent = false := by
  unfold unusedSwap at made
  split at made
  · cases made
  · obtain ⟨component, known, made⟩ := Option.bind_eq_some_iff.mp made
    obtain ⟨state, _, made⟩ := Option.bind_eq_some_iff.mp made
    split at made
    · split at made
      · cases made
      · rename_i kept
        cases made
        exact ⟨known, Bool.eq_false_iff.mpr kept⟩
    · cases made

/-! ## Targets -/

/-- The part of a route that a replacement takes the place of. -/
structure ReplacementTarget where
  replacedIndices : List Nat
  tokenIn : Address
  tokenOut : Address
  split : Binary64

section

variable (swaps : List (Swap P))

/-- Whether swaps lead from the input to the output without one that ends on a token. -/
def canReachOutputWithoutToken (inputToken outputToken excludedToken : Address) : Bool :=
  outputToken ∈ swaps.foldl (fun reached swap =>
    if swap.tokenOut ≠ excludedToken && swap.tokenIn ∈ reached then swap.tokenOut :: reached
    else reached) [inputToken]

/-- The tokens that every path passes through, in route order, the ends included. -/
def findCutTokens : List Address :=
  match swaps.head?, swaps.getLast? with
  | some first, some last =>
    let inner := unseen [] ((swaps.map Swap.tokenOut).filter fun token => token ≠ last.tokenOut)
    first.tokenIn :: inner.filter (fun token =>
      !canReachOutputWithoutToken swaps first.tokenIn last.tokenOut token) ++ [last.tokenOut]
  | _, _ => []

/-- The tokens that the swaps lead to from a token, and the token itself. -/
def findDownstream (start : Address) : List Address :=
  swaps.foldl (fun reached swap =>
    if swap.tokenIn ∈ reached then swap.tokenOut :: reached else reached) [start]

/-- The tokens from which the swaps lead to a token, and the token itself. -/
def findUpstream (start : Address) : List Address :=
  swaps.reverse.foldl (fun reached swap =>
    if swap.tokenOut ∈ reached then swap.tokenIn :: reached else reached) [start]

/-- The segment between two cut tokens, if it has more than one swap. -/
def segmentTarget (tokenIn tokenOut : Address) : Option ReplacementTarget :=
  let replaced := (swaps.zipIdx.filter fun entry =>
    entry.1.tokenIn ∈ findDownstream swaps tokenIn &&
      entry.1.tokenOut ∈ findUpstream swaps tokenOut).map Prod.snd
  if 1 < replaced.length then some ⟨replaced, tokenIn, tokenOut, 0⟩ else none

/-- One target for each pair of cut tokens with more than one swap between them. -/
def buildSegmentTargets : List ReplacementTarget :=
  (findCutTokens swaps).tails.flatMap fun cuts =>
    cuts.tail.filterMap fun tokenOut => cuts.head?.bind fun tokenIn =>
      segmentTarget swaps tokenIn tokenOut

/-- Whether a replacement takes a required token off the route. -/
def dropsRequiredToken (target : ReplacementTarget) (requiredTokens : Finset Address) : Bool :=
  target.replacedIndices.any fun index => swaps[index]?.any fun swap =>
    [swap.tokenIn, swap.tokenOut].any fun token =>
      token ≠ target.tokenIn && token ≠ target.tokenOut && token ∈ requiredTokens

/-- Every swap alone, then the segments that keep every required token on the route. -/
def buildTargets (requiredTokens : Finset Address) : List ReplacementTarget :=
  swaps.zipIdx.map (fun entry => ⟨[entry.2], entry.1.tokenIn, entry.1.tokenOut, entry.1.split⟩) ++
    (buildSegmentTargets swaps).filter fun target =>
      !dropsRequiredToken swaps target requiredTokens

end

/-! ## Simulated replacements -/

/-- Gives a swap another token pair and another split. -/
def Swap.retarget (swap : Swap P) (tokenIn tokenOut : Address) (split : Binary64) : Swap P :=
  { swap with tokenIn := tokenIn, tokenOut := tokenOut, split := split }

/-- Whether the pool of a swap trades the ends of a target and is not on the route yet. -/
def canReplace (swap : Swap P) (target : ReplacementTarget) (routeSwaps : List (Swap P)) : Bool :=
  swap.protocolComponent.tokens.contains target.tokenIn &&
    swap.protocolComponent.tokens.contains target.tokenOut &&
    !routeSwaps.any fun routeSwap => routeSwap.componentId = swap.componentId

/-- What the gas of a route cost in its output token, and how much gas it was. -/
structure OriginalRouteGasCost where
  gasCostOut : Nat
  gas : Nat

namespace OriginalRouteGasCost

/-- Prices the gas of a route. A route that uses none has no price. -/
def fromRouteResult (result : RouteResult P) (outputToken : Address) :
    Option OriginalRouteGasCost :=
  if result.route.totalGas = 0 then none
  else some ⟨((result.route.amountOut outputToken : Int) - result.netAmountOut).toNat,
    result.route.totalGas⟩

/-- The output of a simulated route less the gas cost, scaled to its gas. -/
def netAmountOut (cost : OriginalRouteGasCost) (simulated : SimulatedRoute) : Int :=
  (simulated.amountOut : Int) - (cost.gasCostOut * simulated.gas / cost.gas : Nat)

end OriginalRouteGasCost

/-- A route with a replacement, as it was simulated, and the amount it commits to pay. -/
structure CandidateRoute (P : Type) where
  swaps : List (Swap P)
  amountOut : Nat
  netAmountOut : Int
  committedAmountOut : Option Nat

/-- What replacements of one route are simulated with. -/
structure RouteEvaluator (P : Type) where
  original : RouteResult P
  gasCost : OriginalRouteGasCost
  tokens : Map Address Token
  inputToken : Address
  outputToken : Address
  totalIn : Nat
  originalAmountOut : Nat

/-- The swaps with some removed, and others in the place of the first of them. -/
def replaceTargetSwaps (swaps : List (Swap P)) (replacedIndices : List Nat)
    (replacement : List (Swap P)) : List (Swap P) :=
  swaps.zipIdx.flatMap fun entry =>
    (if replacedIndices.head? = some entry.2 then replacement else []) ++
      if entry.2 ∈ replacedIndices then [] else [entry.1]

/-- A swap with simulated amounts, free of any commitment and fallback. -/
def Swap.resimulated (swap : Swap P) (simulated : SimulatedSwap) : Swap P where
  componentId := swap.componentId
  protocol := swap.protocol
  tokenIn := swap.tokenIn
  tokenOut := swap.tokenOut
  amountIn := simulated.amountIn
  amountOut := simulated.amountOut
  gasEstimate := simulated.gas
  protocolComponent := swap.protocolComponent
  protocolState := swap.protocolState
  split := swap.split

namespace RouteEvaluator

variable [ProtocolSim P]

section

variable (evaluator : RouteEvaluator P)

/-- Runs swaps with the tokens of the liquidity, each on its own state. -/
def simulate (swaps : List (Swap P)) : Except ReplayError SimulatedRoute :=
  simulateSwaps evaluator.tokens.lookup (fun swap => some swap.protocolState) swaps
    ⟨evaluator.inputToken, evaluator.outputToken, evaluator.totalIn⟩

/-- What swaps net when they are simulated again. -/
def simulateBaseline (swaps : List (Swap P)) : Option Int :=
  (evaluator.simulate swaps).toOption.map evaluator.gasCost.netAmountOut

/-- The route with a replacement in place of a target, if it can be simulated. -/
def simulateReplacement (swaps : List (Swap P))
    (target : ReplacementTarget) (replacement : List (Swap P)) : Option (CandidateRoute P) :=
  let ordered := replaceTargetSwaps swaps target.replacedIndices replacement
  (evaluator.simulate ordered).toOption.map fun simulated =>
    { swaps := (ordered.zip simulated.swaps).map fun entry => entry.1.resimulated entry.2
      amountOut := simulated.amountOut
      netAmountOut := evaluator.gasCost.netAmountOut simulated
      committedAmountOut := none }

/-- The route with a target replaced by one swap, if it nets enough. -/
def replaceWithSwap (swap : Swap P) (target : ReplacementTarget)
    (routeSwaps : List (Swap P)) (minNetAmountOut : Int) : Option (CandidateRoute P) :=
  (evaluator.simulateReplacement routeSwaps target
    [swap.retarget target.tokenIn target.tokenOut target.split]).filter fun candidate =>
      minNetAmountOut < candidate.netAmountOut

end

end RouteEvaluator

/-! ## The search -/

/-- Which swaps may replace a target, and the best route that puts one in its place. The search for
it is given the readings of the clock that are left, and returns what it leaves of them. -/
structure ReplacementFinder (P : Type) where
  canReplaceTarget : RouteEvaluator P → Swap P → ReplacementTarget →
    List (Swap P) → Bool
  findBestReplacementRoute : RouteEvaluator P → Swap P → ReplacementTarget →
    List (Swap P) → Int → Nat → Option (CandidateRoute P) × Nat

/-- A search of one route. -/
structure ReplacementSolver (P : Type) where
  evaluator : RouteEvaluator P
  swaps : List (Swap P)
  finder : ReplacementFinder P
  requiredTokens : Finset Address

/-- A route under search. -/
structure SearchState (P : Type) where
  swaps : List (Swap P)
  netAmountOut : Int
  committedAmountOut : Option Nat := none
  changed : Bool := false

namespace ReplacementSolver

/-- Prepares a search, if there are swaps to try and the route has swaps, two ends and a gas
price. -/
def new (liquidity : ReplacementLiquidity P) (request : PostProcessRequest)
    (original : RouteResult P) (finder : ReplacementFinder P) : Option (ReplacementSolver P) :=
  if liquidity.swaps.isEmpty then none
  else do
    let inputToken ← original.route.inputToken
    let outputToken ← original.route.outputToken
    if inputToken = outputToken then none
    else do
      let gasCost ← OriginalRouteGasCost.fromRouteResult original outputToken
      return {
        evaluator :=
          { original := original, gasCost := gasCost, tokens := liquidity.tokens
            inputToken := inputToken, outputToken := outputToken
            totalIn := request.order.amount
            originalAmountOut := original.route.amountOut outputToken }
        swaps := liquidity.swaps
        finder := finder
        requiredTokens := request.constraints.requiredTokens }

/-- Tries every target with every swap and keeps the best candidate, until the deadline. -/
def bestRoute (solver : ReplacementSolver P) (routeSwaps : List (Swap P)) :
    List (ReplacementTarget × Swap P) → Option (CandidateRoute P) → Int → Nat →
      Option (CandidateRoute P) × Nat
  | [], best, _, readings => (best, readings)
  | (target, swap) :: rest, best, bestNet, readings =>
    if !solver.finder.canReplaceTarget solver.evaluator swap target routeSwaps then
      solver.bestRoute routeSwaps rest best bestNet readings
    else if readings = 0 then (best, 0)
    else
      match solver.finder.findBestReplacementRoute solver.evaluator swap target routeSwaps bestNet
          (readings - 1) with
      | (none, left) => solver.bestRoute routeSwaps rest best bestNet left
      | (some candidate, left) =>
        solver.bestRoute routeSwaps rest (some candidate) candidate.netAmountOut left

/-- What a round tries: every target of the route with every swap. -/
def trials (solver : ReplacementSolver P) (routeSwaps : List (Swap P)) :
    List (ReplacementTarget × Swap P) :=
  (buildTargets routeSwaps solver.requiredTokens).flatMap fun target =>
    solver.swaps.map (target, ·)

/-- Applies the best replacement for so many rounds, until there is none or the deadline passes. -/
def applyRounds (solver : ReplacementSolver P) :
    Nat → SearchState P → Nat → SearchState P
  | 0, state, _ => state
  | rounds + 1, state, readings =>
    if readings = 0 then state
    else
      match solver.bestRoute state.swaps (solver.trials state.swaps) none state.netAmountOut
          (readings - 1) with
      | (none, _) => state
      | (some candidate, left) =>
        solver.applyRounds rounds
          { swaps := candidate.swaps
            netAmountOut := candidate.netAmountOut
            committedAmountOut := candidate.committedAmountOut
            changed := true } left

/-- Applies the best replacements, if the route they lead to nets more than the original. -/
def applyBestReplacements [ProtocolSim P] (solver : ReplacementSolver P)
    (readings : Nat) : Option (RouteResult P) := do
  let original := solver.evaluator.original
  let baseline ← solver.evaluator.simulateBaseline original.route.swaps
  let final := solver.applyRounds original.route.swaps.length
    { swaps := original.route.swaps, netAmountOut := baseline } readings
  if !final.changed || final.netAmountOut ≤ original.netAmountOut then none
  else do
    let route ← (Route.new final.swaps solver.evaluator.tokens).toOption
    return {
      route := route
      netAmountOut := final.netAmountOut
      gasPrice := original.gasPrice
      commitment := final.committedAmountOut.map fun committed =>
        ⟨committed, solver.evaluator.originalAmountOut⟩ }

/-! ## What a search finds -/

section Search

variable {solver : ReplacementSolver P} {routeSwaps : List (Swap P)} {candidate : CandidateRoute P}

/-- A prepared search is for the route it was given, with the finder and the swaps it was given. -/
theorem new_eq_some {liquidity : ReplacementLiquidity P} {request : PostProcessRequest}
    {route : RouteResult P} {finder : ReplacementFinder P}
    (prepared : new liquidity request route finder = some solver) :
    solver.evaluator.original = route ∧ solver.finder = finder ∧
      solver.swaps = liquidity.swaps := by
  unfold new at prepared
  split at prepared
  · cases prepared
  · obtain ⟨inputToken, _, prepared⟩ := Option.bind_eq_some_iff.mp prepared
    obtain ⟨outputToken, _, prepared⟩ := Option.bind_eq_some_iff.mp prepared
    split at prepared
    · cases prepared
    · obtain ⟨gasCost, _, prepared⟩ := Option.bind_eq_some_iff.mp prepared
      cases prepared
      exact ⟨rfl, rfl, rfl⟩

variable (solver routeSwaps candidate) in
/-- The finder returns a candidate for a swap of the search that may replace a target. -/
def Finds : Prop :=
  ∃ target, ∃ swap ∈ solver.swaps,
    solver.finder.canReplaceTarget solver.evaluator swap target routeSwaps = true ∧
      ∃ net readings, (solver.finder.findBestReplacementRoute solver.evaluator swap target
        routeSwaps net readings).1 = some candidate

private theorem finds_of_bestRoute {entries : List (ReplacementTarget × Swap P)}
    {best : Option (CandidateRoute P)} {bestNet : Int} {readings : Nat}
    (usable : ∀ entry ∈ entries, entry.2 ∈ solver.swaps)
    (found : (solver.bestRoute routeSwaps entries best bestNet readings).1 = some candidate) :
    best = some candidate ∨ solver.Finds routeSwaps candidate := by
  induction entries generalizing best bestNet readings with
  | nil => exact .inl found
  | cons entry rest ih =>
    obtain ⟨target, swap⟩ := entry
    have later : ∀ entry ∈ rest, entry.2 ∈ solver.swaps :=
      fun entry member => usable entry (mem_cons_of_mem _ member)
    rw [bestRoute] at found
    split at found
    · exact ih later found
    · rename_i fits
      split at found
      · exact .inl found
      · split at found
        · exact ih later found
        · rename_i next left returned
          obtain same | finds := ih later found
          · cases same
            exact .inr ⟨target, swap, usable _ mem_cons_self, by simpa using fits, _, _,
              congrArg Prod.fst returned⟩
          · exact .inr finds

variable (holds : List (Swap P) → Option Nat → Prop)
  (keeps : ∀ swaps committed candidate, holds swaps committed → solver.Finds swaps candidate →
    holds candidate.swaps candidate.committedAmountOut)
include keeps

/-- What every replacement keeps, the rounds keep. -/
theorem applyRounds_invariant (rounds : Nat) {state : SearchState P}
    (begins : holds state.swaps state.committedAmountOut) (readings : Nat) :
    holds (solver.applyRounds rounds state readings).swaps
      (solver.applyRounds rounds state readings).committedAmountOut := by
  induction rounds generalizing state readings with
  | zero => exact begins
  | succ rounds ih =>
    rw [applyRounds]
    split
    · exact begins
    · split
      · exact begins
      · rename_i candidate left returned
        have usable : ∀ entry ∈ solver.trials state.swaps, entry.2 ∈ solver.swaps := by
          intro entry member
          obtain ⟨target, _, tried⟩ := mem_flatMap.mp member
          obtain ⟨swap, listed, rfl⟩ := mem_map.mp tried
          exact listed
        obtain same | finds := finds_of_bestRoute usable (congrArg Prod.fst returned)
        · cases same
        · exact ih (keeps _ _ candidate begins finds) left

variable [ProtocolSim P]

/-- **A search nets more.** The route it returns nets more than the original, and has what every
replacement keeps. -/
theorem applyBestReplacements_eq_some
    (begins : holds solver.evaluator.original.route.swaps none) {readings : Nat}
    {result : RouteResult P} (done : solver.applyBestReplacements readings = some result) :
    solver.evaluator.original.netAmountOut < result.netAmountOut ∧
      holds result.route.swaps (result.commitment.map Commitment.committedAmountOut) := by
  unfold applyBestReplacements at done
  obtain ⟨baseline, _, done⟩ := Option.bind_eq_some_iff.mp done
  dsimp only at done
  split at done
  · cases done
  · rename_i improved
    obtain ⟨route, built, done⟩ := Option.bind_eq_some_iff.mp done
    cases done
    obtain ⟨rfl, _⟩ := Route.new_eq_ok (eq_ok_of_toOption built)
    simp only [Bool.or_eq_true, decide_eq_true_eq, not_or, not_le] at improved
    refine ⟨improved.2, ?_⟩
    rw [Option.map_map, Function.comp_def, Option.map_id']
    exact applyRounds_invariant holds keeps _ begins readings

end Search

end ReplacementSolver

theorem mem_of_mem_replaceTargetSwaps {swaps replacement : List (Swap P)}
    (member : swap ∈ replaceTargetSwaps swaps replacedIndices replacement) :
    swap ∈ replacement ∨ swap ∈ swaps := by
  obtain ⟨entry, listed, member⟩ := mem_flatMap.mp member
  obtain inside | kept := mem_append.mp member
  · split at inside
    · exact .inl inside
    · cases inside
  · split at kept
    · cases kept
    · rw [mem_singleton.mp kept]
      exact .inr (mem_of_getElem? (mem_zipIdx_iff_getElem?.mp listed))

end Fynd
