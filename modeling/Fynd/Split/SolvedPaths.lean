import Fynd.BellmanFord.Forest
import Fynd.BellmanFord.GasRate
import Fynd.Split.PathFrankWolfe
import Fynd.Split.PlanEnds

/-!
# The paths a split search works with

Every path of a search is found by a single-path solve of the order's two tokens, so it leads from
one to the other, and so does every split made of such paths. A search whose gas costs nothing
probes with nothing, and a solve of nothing finds no path.
-/

namespace Fynd

open Foundation List

variable {P : Type}

/-! ## The ends of a solved path -/

/-- The endpoints of a context are two nodes, for the two tokens of an order. -/
structure BellmanFordContext.Serves (ctx : BellmanFordContext P)
    (tokenIn tokenOut : Address) : Prop where
  source : ∀ token, ctx.tokenMap.lookup ctx.tokenInNode = some token → token.address = tokenIn
  target : ∀ node, ctx.tokenOutNode = some node →
    node ≠ ctx.tokenInNode ∧
      ∀ token, ctx.tokenMap.lookup node = some token → token.address = tokenOut

variable {D : Type} {node : NodeIndex} {ctx : BellmanFordContext P}

private theorem getToken_of_lookup_foldl {graph : TokenDiGraph D} {market : MarketState P}
    {nodes : List NodeIndex} {token : Token}
    (found : (nodes.foldl (fun tokens node =>
      match market.getToken (tokenOf graph node) with
      | some token => tokens.insert node token
      | none => tokens) (∅ : Map NodeIndex Token)).lookup node = some token) :
    market.getToken (tokenOf graph node) = some token := by
  have known : (mapOfList (nodes.filterMap fun node =>
      (market.getToken (tokenOf graph node)).map (node, ·))).lookup node = some token := by
    rw [← found, mapOfList, foldl_filterMap]
    congr 2
    funext tokens node
    cases market.getToken (tokenOf graph node) <;> rfl
  rw [lookup_mapOfList_filterMap] at known
  split at known
  · exact known
  · cases known

private theorem tokens_extractSubsetWithOverlay (market : MarketState P)
    (overlay : Option (StateLabel × Map ComponentId P)) (ids : List ComponentId) :
    (market.extractSubsetWithOverlay overlay ids).tokens = (market.extractSubset ids).tokens := by
  cases overlay <;> rfl

/-- What a context takes over from the request it is built for. -/
structure BuiltFor {D : Type} (request : SolveRequest P D) (ctx : BellmanFordContext P) : Prop where
  source : tokenOf request.graph ctx.tokenInNode = request.order.tokenIn
  target : ∀ node, ctx.tokenOutNode = some node →
    node ≠ ctx.tokenInNode ∧ tokenOf request.graph node = request.order.tokenOut
  tokens : ∃ view, request.market = .ok view ∧ ∀ node token,
    ctx.tokenMap.lookup node = some token →
      view.base.tokens.lookup (tokenOf request.graph node) = some token
  prices : ctx.tokenPrices = request.derived.bind DerivedData.tokenPrices

section

variable {algorithm : BellmanFordAlgorithm} {request : SolveRequest P D}
  (built : algorithm.buildContext request = .ok ctx)
include built

/-- A built context belongs to its request. -/
theorem builtFor_of_buildContext : BuiltFor request ctx := by
  unfold BellmanFordAlgorithm.buildContext at built
  dsimp only at built
  split at built
  · cases built
  · split at built
    · cases built
    · rename_i tokenInNode sourceFound
      split at built
      · cases built
      · rename_i tokenOutNode destinationFound
        split at built
        · cases built
        · rename_i apart
          split at built
          · cases built
          · rename_i subgraph subgraphFound
            split at built
            · cases built
            · rename_i view read
              cases built
              have source := find?_some sourceFound
              have target := find?_some destinationFound
              rw [decide_eq_true_eq] at source target
              refine ⟨source, ?_, ⟨view, read, ?_⟩, rfl⟩
              · intro node named
                obtain rfl := Option.some.inj named
                exact ⟨Ne.symm apart, target⟩
              · intro node token known
                have held := getToken_of_lookup_foldl known
                rw [MarketState.getToken, tokens_extractSubsetWithOverlay,
                  MarketState.extractSubset, MarketState.lookup_restrictMap] at held
                split at held
                · exact held
                · cases held

/-- The context built for an order serves its two tokens, on a market that files every token
under its address. -/
theorem serves_of_buildContext
    (keyed : ∀ view, request.market = .ok view → KeyedTokens view.base.tokens) :
    ctx.Serves request.order.tokenIn request.order.tokenOut := by
  have builtFor := builtFor_of_buildContext built
  obtain ⟨view, read, filed⟩ := builtFor.tokens
  have addressed (node : NodeIndex) (token : Token)
      (known : ctx.tokenMap.lookup node = some token) :
      token.address = tokenOf request.graph node :=
    keyed view read _ _ (filed node token known)
  refine ⟨fun token known => (addressed _ _ known).trans builtFor.source, fun node named => ?_⟩
  obtain ⟨apart, target⟩ := builtFor.target node named
  exact ⟨apart, fun token known => (addressed _ _ known).trans target⟩

end

/-- A hop that names the tokens of a swap. -/
structure NamesTokens (tokens : Map Address Token) (swap : Swap P) (hop : SimulatedHop) : Prop where
  tokenIn : tokens.lookup swap.tokenIn = some hop.descriptor.tokenIn
  tokenOut : tokens.lookup swap.tokenOut = some hop.descriptor.tokenOut

private theorem simulatedHops_eq_ok {display : Address → String} {route : Route P}
    {hops : List SimulatedHop} (named : simulatedHops display route = .ok hops) :
    List.Forall₂ (NamesTokens route.tokens) route.swaps hops := by
  refine (mapM_eq_ok_iff.mp named).imp fun swap hop made => ?_
  simp only [bind_eq_ok_iff, require_eq_ok_iff] at made
  obtain ⟨tokenIn, knownIn, tokenOut, knownOut, done⟩ := made
  cases done
  exact ⟨knownIn, knownOut⟩

section Reads

variable {overrides : MarketOverrides P} {amount edgeGas : NodeIndex → Nat} {start : NodeIndex}
  {path : List PathEdge} {swaps : List (Swap P)} (chained : Chained start path node)
  (nonempty : path ≠ []) (reads : List.Forall₂ (ReadsHop ctx overrides amount edgeGas) path swaps)

include chained nonempty reads

/-- The swaps along a path end where the path ends, with what is held there. -/
theorem last_of_readsHop :
    ∃ last, swaps.getLast? = some last ∧ last.amountOut = amount node ∧
      (ctx.tokenMap.lookup node).map Token.address = some last.tokenOut := by
  induction reads generalizing start with
  | nil => exact absurd rfl nonempty
  | @cons edge swap rest later here tail ih =>
    obtain ⟨-, following⟩ := chained
    cases tail with
    | nil =>
      obtain rfl : edge.2.1 = node := following
      exact ⟨swap, rfl, here.amountOut, here.tokenOut⟩
    | cons next others =>
      obtain ⟨last, final, paid⟩ := ih following (cons_ne_nil _ _)
      exact ⟨last, by rw [getLast?_cons_cons, final], paid⟩

/-- The hops of a route lead where its path leads. -/
theorem hopsLead_of_readsHop {tokens : Map Address Token} (keyed : KeyedTokens tokens)
    {hops : List SimulatedHop} {tokenIn tokenOut : Address}
    (names : List.Forall₂ (NamesTokens tokens) swaps hops)
    (source : ∀ token, ctx.tokenMap.lookup start = some token → token.address = tokenIn)
    (target : ∀ token, ctx.tokenMap.lookup node = some token → token.address = tokenOut) :
    HopsLead tokenIn tokenOut (hops.map SimulatedHop.descriptor) := by
  induction reads generalizing start tokenIn hops with
  | nil => exact absurd rfl nonempty
  | @cons edge swap rest later here tail ih =>
    obtain ⟨rfl, following⟩ := chained
    obtain ⟨hop, others, first, remaining, rfl⟩ := forall₂_cons_left_iff.mp names
    obtain ⟨inToken, inKnown, inAddress⟩ := Option.map_eq_some_iff.mp here.tokenIn
    obtain ⟨outToken, outKnown, outAddress⟩ := Option.map_eq_some_iff.mp here.tokenOut
    have taken := keyed _ _ first.tokenIn
    have paid := keyed _ _ first.tokenOut
    refine ⟨by rw [taken, ← inAddress, source inToken inKnown], ?_⟩
    cases tail with
    | nil =>
      cases remaining
      obtain rfl : edge.2.1 = node := following
      change hop.descriptor.tokenOut.address = tokenOut
      rw [paid, ← outAddress, target outToken outKnown]
    | cons next others =>
      refine ih following (cons_ne_nil _ _) remaining fun token known => ?_
      obtain rfl := Option.some.inj (outKnown.symm.trans known)
      rw [outAddress, paid]

end Reads

section Solved

variable [ProtocolSim P] {algorithm : BellmanFordAlgorithm}
  {ctx : BellmanFordContext P} {overrides : MarketOverrides P} {order : Order}
  {timedOut : Nat → Bool} {result : RouteResult P} {tokenIn tokenOut : Address}

variable (algorithm ctx overrides order timedOut tokenIn tokenOut) in
/-- What a solve of a served pair returns: a route that ends at the output token with what the
relaxation holds there, scored at that amount. -/
structure SolvedPath (result : RouteResult P) : Prop where
  output : result.route.outputToken = some tokenOut
  scored : ∃ tokenOutNode last, result.route.swaps.getLast? = some last ∧
    last.amountOut =
      (runSpfa algorithm ctx overrides order.amount timedOut).1.amount tokenOutNode ∧
    scoredAmountOut ctx (runSpfa algorithm ctx overrides order.amount timedOut).1 tokenOutNode
      result.route (ctx.gasPriceWei.getD 0) = .ok result.netAmountOut
  leads : ∀ display hops, simulatedHops display result.route = .ok hops →
    HopsLead tokenIn tokenOut (hops.map SimulatedHop.descriptor)

/-- A route that is found solves its pair. -/
theorem solvedPath_of_findSingleRoute (serves : ctx.Serves tokenIn tokenOut)
    (found : findSingleRoute algorithm ctx overrides order timedOut = .ok result) :
    SolvedPath algorithm ctx overrides order timedOut tokenIn tokenOut result := by
  obtain ⟨node, path, destination, _, reconstructed, built, scored⟩ := findSingleRoute_built found
  have forest := (spfaSteps_forest algorithm ctx overrides order.amount timedOut).2
  have chained := (forest.reconstructPath_eq_ok_iff.mp reconstructed).chained
  obtain ⟨apart, target⟩ := serves.target node destination
  have nonempty : path ≠ [] := by
    rintro rfl
    exact apart (Eq.symm chained)
  have reads := buildRoute_eq_ok built
  obtain ⟨last, final, held, named⟩ := last_of_readsHop chained nonempty reads
  obtain ⟨token, known, address⟩ := Option.map_eq_some_iff.mp named
  exact {
    output := by rw [Route.outputToken, final, Option.map_some, ← address, target token known]
    scored := ⟨node, last, final, held, scored⟩
    leads := fun display hops listed => hopsLead_of_readsHop chained nonempty reads
      (keyedTokens_of_buildRoute built) (simulatedHops_eq_ok listed) serves.source target }

end Solved

/-! ## The paths of a search -/

/-- Every path leads from one token to another. -/
def PathsLead (tokenIn tokenOut : Address) (paths : List PathAllocation) : Prop :=
  ∀ path ∈ paths, HopsLead tokenIn tokenOut (path.hops.map SimulatedHop.descriptor)

section Search

variable [ProtocolSim P] {display : Address → String} {symbol : Token → String}
  {displayFloat : Binary64 → String} {spotPrice : SpotPriceFn P Binary64}
  {algorithm : PathFrankWolfeAlgorithm} {ctx : BellmanFordContext P} {clock : SolveClock}
  {tokenIn tokenOut : Address} {totalAmount : Nat}

private theorem length_hopResults {market : MarketState P} {overrides : MarketOverrides P}
    {hops : List HopDescriptor} {amountIn : Nat} {sim : SimResult P}
    (simulated : simulatePath spotPrice hops amountIn market overrides = .ok sim) :
    sim.hopResults.length = hops.length := by
  have counted := foldlM_invariant
    (fun (sim : SimResult P) (left : List HopDescriptor) =>
      sim.hopResults.length + left.length = hops.length) ?_ (by simp) simulated
  · simpa using counted
  · intro before hop rest next known stepped
    obtain ⟨state, -, later⟩ := bind_eq_ok_iff.mp stepped
    obtain ⟨price, -, later⟩ := bind_eq_ok_iff.mp later
    obtain ⟨answer, -, done⟩ := bind_eq_ok_iff.mp later
    cases done
    simp only [length_append, length_cons, length_nil] at known ⊢
    omega

private theorem resimulate_eq_ok {done next : List PathAllocation × MarketOverrides P}
    {path : PathAllocation × Binary64}
    (simulated : resimulate spotPrice ctx totalAmount done path = .ok next) :
    ∃ again, next.1 = done.1 ++ [again] ∧
      again.hops.map SimulatedHop.descriptor = path.1.hops.map SimulatedHop.descriptor := by
  obtain ⟨sim, ran, finished⟩ := bind_eq_ok_iff.mp simulated
  cases finished
  refine ⟨_, rfl, ?_⟩
  have long := length_hopResults ran
  rw [length_map] at long
  dsimp only
  rw [map_zipWith]
  exact ext_getElem (by simp [long]) fun i _ _ => by simp

variable {allocations : List PathAllocation} {probeAmount : Nat} {timedOut : Nat → Bool}
  {candidate : List SimulatedHop} {config : PathFrankWolfeConfig} {order : Order}

/-- A step keeps the hops of the paths and adds those of the candidate. -/
theorem PathsLead.applyStep {allocations next : List PathAllocation} {stepSize : Binary64}
    (leads : PathsLead tokenIn tokenOut allocations)
    (added : HopsLead tokenIn tokenOut (candidate.map SimulatedHop.descriptor))
    (stepped : applyStep spotPrice config ctx allocations candidate stepSize totalAmount =
      .ok next) : PathsLead tokenIn tokenOut next := by
  obtain ⟨fractions, -, rest⟩ := bind_eq_ok_iff.mp stepped
  obtain ⟨⟨final, _⟩, folded, done⟩ := bind_eq_ok_iff.mp rest
  cases done
  have kept := foldlM_invariant
    (fun (done : List PathAllocation × MarketOverrides P)
        (left : List (PathAllocation × Binary64)) =>
      PathsLead tokenIn tokenOut done.1 ∧ PathsLead tokenIn tokenOut (left.map Prod.fst))
    ?_ ?_ folded
  · exact kept.1
  · rintro done path left next ⟨before, ahead⟩ simulated
    obtain ⟨again, grown, hops⟩ := resimulate_eq_ok simulated
    rw [map_cons] at ahead
    refine ⟨?_, fun other member => ahead other (mem_cons_of_mem _ member)⟩
    rw [grown]
    intro other member
    rcases mem_append.mp member with earlier | here
    · exact before other earlier
    · obtain rfl := mem_singleton.mp here
      rw [hops]
      exact ahead path.1 mem_cons_self
  · refine ⟨by simp [PathsLead], ?_⟩
    intro path member
    obtain ⟨pair, zipped, rfl⟩ := mem_map.mp member
    have inKept := (of_mem_zip zipped).1
    rcases mem_append.mp (mem_filter.mp inKept).1 with scaled | fresh
    · obtain ⟨old, listed, same⟩ := mem_map.mp scaled
      rw [← same]
      exact leads old listed
    · rw [mem_singleton.mp fresh]
      exact added

/-- A candidate is a path between the tokens that the context serves. -/
theorem findCandidatePath_leads (serves : ctx.Serves tokenIn tokenOut)
    (found : findCandidatePath display symbol algorithm ctx allocations probeAmount timedOut =
      .ok candidate) :
    probeAmount ≠ 0 ∧ HopsLead tokenIn tokenOut (candidate.map SimulatedHop.descriptor) := by
  simp only [findCandidatePath, bind_eq_ok_iff] at found
  obtain ⟨_, -, _, -, _, -, result, solved, listed⟩ := found
  have again : (ctx.mapStates SelectiveZeroGasSim.plain).Serves tokenIn tokenOut :=
    ⟨serves.source, serves.target⟩
  refine ⟨?_, (solvedPath_of_findSingleRoute again solved).leads _ _ listed⟩
  rintro rfl
  obtain ⟨node, -, -, nonzero, -⟩ := findSingleRoute_eq_ok solved
  exact nonzero (amount_runSpfa_zero ..)

private theorem computeProbeAmount_free {probeImpact : Binary64}
    (probes : computeProbeAmount config totalAmount probeImpact 0 = some probeAmount) :
    probeAmount = 0 := by
  unfold computeProbeAmount at probes
  split at probes
  · cases probes
  · dsimp only at probes
    split at probes
    · cases probes
    · cases probes
      exact Binary64.ceilToU128_zero_div probeImpact

/-- **What a search returns.** Paths between the tokens of the order, and without a gas cost the
ones it started from. -/
theorem searchPaths_eq_ok (serves : ctx.Serves tokenIn tokenOut) {gasCost : Binary64}
    {iterations iteration : Nat} {allocations final : List PathAllocation}
    (leads : PathsLead tokenIn tokenOut allocations)
    (searched : searchPaths display symbol displayFloat spotPrice algorithm ctx clock totalAmount
      gasCost iterations iteration allocations = .ok final) :
    PathsLead tokenIn tokenOut final ∧ (gasCost = 0 → final = allocations) := by
  induction iterations generalizing iteration allocations with
  | zero =>
    cases searched
    exact ⟨leads, fun _ => rfl⟩
  | succ iterations ih =>
    unfold searchPaths at searched
    split at searched
    · cases searched
      exact ⟨leads, fun _ => rfl⟩
    · obtain ⟨probeImpact, -, rest⟩ := bind_eq_ok_iff.mp searched
      split at rest
      · cases rest
        exact ⟨leads, fun _ => rfl⟩
      · rename_i probeAmount probes
        split at rest
        · cases rest
          exact ⟨leads, fun _ => rfl⟩
        · rename_i candidate found
          obtain ⟨probing, added⟩ := findCandidatePath_leads serves found
          have charged : gasCost ≠ 0 := by
            rintro rfl
            exact probing (computeProbeAmount_free probes)
          split at rest
          · cases rest
            exact ⟨leads, fun _ => rfl⟩
          · dsimp only at rest
            split at rest
            · cases rest
              exact ⟨leads, fun _ => rfl⟩
            · obtain ⟨next, stepped, later⟩ := bind_eq_ok_iff.mp rest
              exact ⟨(ih (leads.applyStep added stepped) later).1,
                fun free => absurd free charged⟩

omit [ProtocolSim P] in
private theorem routeToAllocation_eq_ok {route : Route P} {allocation : PathAllocation}
    (allocated : routeToAllocation display spotPrice ctx route order = .ok allocation) :
    simulatedHops display route = .ok allocation.hops := by
  obtain ⟨hops, listed, rest⟩ := bind_eq_ok_iff.mp allocated
  dsimp only at rest
  split at rest
  · cases rest
  · obtain ⟨_, -, rest⟩ := bind_eq_ok_iff.mp rest
    cases rest
    exact listed

/-- **A split is charged at a listed price.** Where the search ends with a split, the cost of gas
in the output token is known, and the split ends at the output token. -/
theorem optimizeSplit_eq_some {single split : RouteResult P}
    (serves : ctx.Serves order.tokenIn order.tokenOut)
    (found : findSingleRoute algorithm.inner ctx ∅ order timedOut = .ok single)
    (improved : optimizeSplit display symbol displayFloat spotPrice algorithm ctx clock order
      single = .ok (some split)) :
    (gasUnitsToOutputTokens ctx single.route.totalGas order.tokenOut).isSome ∧
      split.route.outputToken = some order.tokenOut ∧ KeyedTokens split.route.tokens ∧
      computeSplitNetAmountOut ctx split.route = .ok split.netAmountOut := by
  have solved := solvedPath_of_findSingleRoute serves found
  obtain ⟨allocation, allocated, rest⟩ := bind_eq_ok_iff.mp improved
  obtain ⟨gasCost, costed, rest⟩ := bind_eq_ok_iff.mp rest
  obtain ⟨_, -, rest⟩ := bind_eq_ok_iff.mp rest
  split at rest
  · cases rest
  · obtain ⟨allocations, searched, rest⟩ := bind_eq_ok_iff.mp rest
    have leads : PathsLead order.tokenIn order.tokenOut [allocation] := by
      intro path member
      rw [mem_singleton.mp member]
      exact solved.leads _ _ (routeToAllocation_eq_ok allocated)
    obtain ⟨ends, unchanged⟩ := searchPaths_eq_ok serves leads searched
    split at rest
    · cases rest
    · rename_i several
      obtain ⟨splitRoute, built, rest⟩ := bind_eq_ok_iff.mp rest
      split at rest
      · cases rest
      · obtain ⟨net, netted, done⟩ := bind_eq_ok_iff.mp rest
        cases done
        obtain ⟨execution, executed, emits, nonempty⟩ := buildSplitRoute_eq_ok built
        have ran := ne_nil_of_forall₂ emits nonempty
        refine ⟨?_, (ends_of_emits (planEnds_of_executeSplitPlan ends executed ran) emits
          nonempty).2.1, keyedTokens_of_buildSplitRoute built, netted⟩
        rw [Option.isSome_iff_ne_none]
        intro unknown
        have free : gasCost = 0 := by
          obtain ⟨last, final, output⟩ := Option.map_eq_some_iff.mp solved.output
          rw [gasCostOutputTokens, final] at costed
          cases costed
          rw [gasUnitsToOutputTokensF64, output, unknown, Option.elim_none]
        rw [unchanged free] at several
        exact several le_rfl

end Search

end Fynd
