import Fynd.Split.SolvedPaths

/-!
# The single path is a floor

A split is taken only where it nets more than the single path the solve started from. A split is
charged at listed prices only, a single path also at prices carried along its spot prices. The
two never meet in one comparison: where the output token is not listed, the search finds no
second path.
-/

namespace Fynd

open Foundation List

variable {P : Type}

/-! ## The rule that nets are measured with -/

section Rule

variable {ctx : BellmanFordContext P} {route : Route P} {output : Address}

/-- The net of a route by the rule of the single-path solver, given what the route delivers. -/
def netByRule (ctx : BellmanFordContext P) (spotProduct : NodeIndex → Float)
    (delivered : Nat) (route : Route P) : Except AlgorithmError Int :=
  computeNetAmountOut delivered route (ctx.gasPriceWei.getD 0) ctx.tokenPrices spotProduct
    ctx.nodeAddress ctx.tokenInNode

/-- What the last swap of a route pays. -/
def Route.finalAmount (route : Route P) : Nat :=
  (route.swaps.getLast?.map Swap.amountOut).getD 0

/-- A route of one path: every swap takes the token the one before it paid, no token is paid
twice, and the route describes the tokens of its swaps. -/
structure Route.OnePath (route : Route P) : Prop where
  nonempty : route.swaps ≠ []
  linked : route.swaps.IsChain fun earlier later => earlier.tokenOut = later.tokenIn
  distinct : (route.swaps.map Swap.tokenOut).Nodup
  described : ∀ swap ∈ route.swaps, swap.tokenIn ∈ route.tokens ∧ swap.tokenOut ∈ route.tokens
  keyed : KeyedTokens route.tokens

/-- One path delivers what its last swap pays. -/
theorem Route.OnePath.ends (path : route.OnePath) :
    ∃ last, route.swaps.getLast? = some last ∧
      route.amountOut last.tokenOut = route.finalAmount := by
  obtain ⟨before, last, shape⟩ := (eq_nil_or_concat' route.swaps).resolve_left path.nonempty
  have final : route.swaps.getLast? = some last := by rw [shape, getLast?_concat]
  have distinct := path.distinct
  rw [shape, map_append, nodup_append] at distinct
  have unpaid : before.filter (fun swap => swap.tokenOut = last.tokenOut) = [] := by
    rw [filter_eq_nil_iff]
    intro swap member
    simpa using distinct.2.2 _ (mem_map_of_mem member) last.tokenOut (by simp)
  refine ⟨last, final, ?_⟩
  rw [Route.amountOut, Route.finalAmount, final, shape, filter_append, unpaid]
  simp

private theorem netByRule_eq_ok (spotProduct : NodeIndex → Float) (delivered : Nat)
    (ends : route.outputToken = some output) :
    netByRule ctx spotProduct delivered route = .ok ((delivered : Int) -
      ((((outputPrice ctx route output spotProduct).bind
        (gasCostInToken route.totalGas (ctx.gasPriceWei.getD 0))).getD 0 : Nat) : Int)) :=
  computeNetAmountOut_eq_ok ends

private theorem computeSplitNetAmountOut_eq_ok (ends : route.outputToken = some output) :
    computeSplitNetAmountOut ctx route = .ok ((route.amountOut output : Int) -
      (((gasUnitsToOutputTokens ctx route.totalGas output).getD 0 : Nat) : Int)) := by
  obtain ⟨last, final, rfl⟩ := Option.map_eq_some_iff.mp ends
  rw [computeSplitNetAmountOut, final]

/-- The rule charges a listed token no more than a split is charged. -/
theorem rate_le_of_charged {gas : Nat} (charged : (gasUnitsToOutputTokens ctx gas output).isSome)
    (keyed : KeyedTokens route.tokens) (spotProduct : NodeIndex → Float) :
    ((outputPrice ctx route output spotProduct).bind
        (gasCostInToken route.totalGas (ctx.gasPriceWei.getD 0))).getD 0 ≤
      (gasUnitsToOutputTokens ctx route.totalGas output).getD 0 := by
  obtain ⟨cost, known⟩ := Option.isSome_iff_exists.mp charged
  simp only [gasUnitsToOutputTokens, Option.bind_eq_bind, Option.bind_eq_some_iff] at known
  obtain ⟨gasPrice, priced, prices, table, price, listed, -⟩ := known
  cases described : route.tokens.lookup output with
  | none =>
    have free : outputPrice ctx route output spotProduct = none := by
      rw [outputPrice, described, table]
      rfl
    rw [free]
    exact Nat.zero_le _
  | some token =>
    have rate : outputPrice ctx route output spotProduct = some price := by
      rw [outputPrice, described, table]
      exact resolveTokenPrice_of_listed (by rw [keyed _ _ described, listed]) _ _
    rw [rate]
    simp [gasUnitsToOutputTokens, priced, table, listed]

/-- Gas is priced, the input token is listed at a proper price, and some token is reached along
a usable product without being listed: there the rule falls back on the price of the input
token. -/
structure FallsBackAt (ctx : BellmanFordContext P) (gasPrice : Nat)
    (prices : TokenGasPrices) (tokenIn : Address) (inPrice : Price) (token : Address)
    (node : NodeIndex) (product : Float) : Prop where
  gas : ctx.gasPriceWei = some gasPrice ∧ gasPrice ≠ 0
  table : ctx.tokenPrices = some prices
  input : ctx.nodeAddress.lookup ctx.tokenInNode = some tokenIn ∧ prices tokenIn = some inPrice
  proper : inPrice.numerator ≠ 0 ∧ inPrice.denominator ≠ 0
  unlisted : prices token = none
  stands : nodeOf ctx.nodeAddress token = some node
  carried : SpotProductAt ctx node product ∧ UsableSpot product

/-- The rule finds every price it charges in the list. -/
def BellmanFordContext.NeverFallsBack (ctx : BellmanFordContext P) : Prop :=
  ∀ gasPrice prices tokenIn inPrice token node product,
    ¬FallsBackAt ctx gasPrice prices tokenIn inPrice token node product

/-- What the rule charges a described output token, where it finds every price in the list. -/
theorem rate_of_neverFallsBack (listed : ctx.NeverFallsBack) (keyed : KeyedTokens route.tokens)
    (described : output ∈ route.tokens) {spotProduct : NodeIndex → Float}
    (products : SpotProducts ctx spotProduct) :
    ((outputPrice ctx route output spotProduct).bind
        (gasCostInToken route.totalGas (ctx.gasPriceWei.getD 0))).getD 0 =
      (gasUnitsToOutputTokens ctx route.totalGas output).getD 0 := by
  cases priced : ctx.gasPriceWei with
  | none =>
    have unknown : gasUnitsToOutputTokens ctx route.totalGas output = none := by
      simp [gasUnitsToOutputTokens, priced]
    rw [unknown, Option.getD_none]
    cases outputPrice ctx route output spotProduct with
    | none => rfl
    | some price => exact gasCostInToken_free _ _
  | some gasPrice =>
    obtain ⟨token, known⟩ := Option.isSome_iff_exists.mp (AList.lookup_isSome.mpr described)
    have address := keyed _ _ known
    cases table : ctx.tokenPrices with
    | none => simp [gasUnitsToOutputTokens, outputPrice, resolveTokenPrice, table]
    | some prices =>
      cases entry : prices output with
      | some price =>
        have rate : outputPrice ctx route output spotProduct = some price := by
          rw [outputPrice, known, table]
          exact resolveTokenPrice_of_listed (by rw [address, entry]) _ _
        simp [gasUnitsToOutputTokens, rate, priced, table, entry]
      | none =>
        have unknown : gasUnitsToOutputTokens ctx route.totalGas output = none := by
          simp [gasUnitsToOutputTokens, priced, table, entry]
        rw [unknown, Option.getD_none, Option.getD_some]
        cases rate : outputPrice ctx route output spotProduct with
        | none => rfl
        | some price =>
          by_cases free : gasPrice = 0
          · rw [free]
            exact gasCostInToken_free _ _
          · rw [outputPrice, known, table] at rate
            obtain ⟨input, inPrice, named, inListed, numerator, denominator, usable⟩ :=
              usable_of_resolveTokenPrice (by rw [address, entry]) rate
            obtain ⟨tokenIn, start, filed⟩ := Option.bind_eq_some_iff.mp named
            rw [keyed _ _ filed] at inListed
            cases stands : nodeOf ctx.nodeAddress output with
            | none =>
              rw [stands, Option.elim_none] at usable
              exact absurd usable (by decide +kernel)
            | some node =>
              rw [stands, Option.elim_some] at usable
              exact absurd ⟨⟨priced, free⟩, table, ⟨start, inListed⟩,
                ⟨numerator, denominator⟩, entry, stands, products node, usable⟩
                (listed gasPrice prices tokenIn inPrice output node _)

/-- Splits are netted by the rule of the single-path solver, on every route of one path and
whatever products the spot prices give. -/
def MirrorsRule (ctx : BellmanFordContext P) : Prop :=
  ∀ route : Route P, route.OnePath → ∀ spotProduct, SpotProducts ctx spotProduct →
    computeSplitNetAmountOut ctx route = netByRule ctx spotProduct route.finalAmount route

/-- Where the rule finds every price it charges in the list, splits are netted by it. -/
theorem BellmanFordContext.NeverFallsBack.mirrorsRule (listed : ctx.NeverFallsBack) :
    MirrorsRule ctx := by
  intro route path spotProduct products
  obtain ⟨last, final, delivers⟩ := path.ends
  have ends : route.outputToken = some last.tokenOut := by rw [Route.outputToken, final]; rfl
  have described := (path.described last (mem_of_getLast? final)).2
  rw [computeSplitNetAmountOut_eq_ok ends, netByRule_eq_ok _ _ ends, delivers,
    rate_of_neverFallsBack listed path.keyed described products]

/-- A swap of nothing for nothing, at one unit of gas. -/
def idleRoute (state : P) (tokenIn tokenOut : Address) : Route P where
  swaps := [{
    componentId := ""
    protocol := ""
    tokenIn := tokenIn
    tokenOut := tokenOut
    amountIn := 0
    amountOut := 0
    gasEstimate := 1
    protocolComponent := ⟨"", "", [], ∅⟩
    protocolState := state }]
  tokens := ((∅ : Map Address Token).insert tokenIn ⟨tokenIn, 0⟩).insert tokenOut ⟨tokenOut, 0⟩

private theorem idleRoute_onePath (state : P) (tokenIn tokenOut : Address) :
    (idleRoute state tokenIn tokenOut).OnePath where
  nonempty := cons_ne_nil _ _
  linked := isChain_singleton _
  distinct := nodup_singleton _
  described := by
    intro swap member
    rw [mem_singleton.mp member]
    exact ⟨AList.mem_insert _ |>.mpr (.inr (AList.mem_insert _ |>.mpr (.inl rfl))),
      AList.mem_insert _ |>.mpr (.inl rfl)⟩
  keyed := (keyedTokens_empty.insert ⟨tokenIn, 0⟩).insert ⟨tokenOut, 0⟩

private theorem neverFallsBack_of_mirrorsRule (state : P) (mirrors : MirrorsRule ctx) :
    ctx.NeverFallsBack := by
  intro gasPrice prices tokenIn inPrice token node product falls
  have apart : tokenIn ≠ token := by
    rintro rfl
    exact absurd falls.input.2 (by simp [falls.unlisted])
  let spotProduct : NodeIndex → Float := Function.update (fun _ => 0.0) node product
  have products : SpotProducts ctx spotProduct := by
    intro other
    by_cases here : other = node
    · rw [here]
      change SpotProductAt ctx node (Function.update (fun _ => 0.0) node product node)
      rw [Function.update_self]
      exact falls.carried.1
    · change SpotProductAt ctx other (Function.update (fun _ => 0.0) node product other)
      rw [Function.update_of_ne here]
      exact .unreached other
  have charged : ∃ price, resolveTokenPrice (some ⟨token, 0⟩) (some prices) product
      (some ⟨tokenIn, 0⟩) = some price ∧ price.numerator ≠ 0 ∧ price.denominator ≠ 0 :=
    exists_resolveTokenPrice falls.unlisted falls.input.2 falls.proper.1 falls.proper.2
      falls.carried.2 (Nat.two_pow_pos 8) (Nat.two_pow_pos 8)
  obtain ⟨price, resolved, numerator, denominator⟩ := charged
  obtain ⟨cost, costs, positive⟩ := gasCostInToken_pos one_ne_zero falls.gas.2 numerator denominator
  have rate : outputPrice ctx (idleRoute state tokenIn token) token spotProduct = some price := by
    rw [outputPrice, falls.table, falls.stands, falls.input.1, Option.elim_some, Option.bind_some,
      ← resolved]
    simp only [idleRoute, lookup_insert_ite, if_neg apart, if_true, spotProduct,
      Function.update_self]
  have free : gasUnitsToOutputTokens ctx 1 token = none := by
    simp [gasUnitsToOutputTokens, falls.gas.1, falls.table, falls.unlisted]
  have delivers : (idleRoute state tokenIn token).amountOut token = 0 ∧
      (idleRoute state tokenIn token).finalAmount = 0 ∧
      (idleRoute state tokenIn token).totalGas = 1 := by
    simp [idleRoute, Route.amountOut, Route.finalAmount, Route.totalGas]
  have ends : (idleRoute state tokenIn token).outputToken = some token := rfl
  have same := mirrors _ (idleRoute_onePath state tokenIn token) spotProduct products
  rw [computeSplitNetAmountOut_eq_ok ends, netByRule_eq_ok _ _ ends, Except.ok.injEq] at same
  rw [delivers.1, delivers.2.1, delivers.2.2, free, rate, falls.gas.1, Option.getD_some,
    Option.bind_some, costs, Option.getD_none, Option.getD_some] at same
  omega

end Rule

/-! ## The floor -/

section Floor

variable [ProtocolSim P] (display : Address → String) (symbol : Token → String)
  (displayFloat : Binary64 → String) (spotPrice : SpotPriceFn P Binary64)
  (algorithm : PathFrankWolfeAlgorithm) (clock : SolveClock) (request : SolveRequest P Unit)
  (ctx : BellmanFordContext P)

/-- What a solve returns is the single path it found first, or nets at least as much by the rule
of the single-path solver. -/
def KeepsFloor : Prop :=
  let spotProduct := (runSpfa algorithm.inner ctx ∅ request.order.amount
    (clock.relaxing 0)).1.spotProduct
  ∀ single, findSingleRoute algorithm.inner ctx ∅ request.order (clock.relaxing 0) = .ok single →
    ∃ best, findBestRoute display symbol displayFloat spotPrice algorithm clock request =
        .ok best ∧
      (best = single ∨ ∃ bestNet singleNet,
        netByRule ctx spotProduct (best.route.amountOut request.order.tokenOut) best.route =
          .ok bestNet ∧
        netByRule ctx spotProduct single.route.finalAmount single.route = .ok singleNet ∧
        singleNet ≤ bestNet)

variable {display symbol displayFloat spotPrice algorithm clock request ctx}

/-- By the rule, the single path nets at most what its solve reports. -/
theorem netByRule_single {order : Order} {timedOut : Nat → Bool} {single : RouteResult P}
    (serves : ctx.Serves order.tokenIn order.tokenOut)
    (found : findSingleRoute algorithm.inner ctx ∅ order timedOut = .ok single) :
    ∃ net, netByRule ctx (runSpfa algorithm.inner ctx ∅ order.amount timedOut).1.spotProduct
      single.route.finalAmount single.route = .ok net ∧ net ≤ single.netAmountOut := by
  have solved := solvedPath_of_findSingleRoute serves found
  obtain ⟨node, last, final, held, scored⟩ := solved.scored
  have delivers : single.route.finalAmount =
      (runSpfa algorithm.inner ctx ∅ order.amount timedOut).1.amount node := by
    rw [Route.finalAmount, final, Option.map_some, Option.getD_some, held]
  refine ⟨_, netByRule_eq_ok _ _ solved.output, ?_⟩
  unfold scoredAmountOut at scored
  cases mode : ctx.scoring with
  | grossOutput =>
    rw [mode] at scored
    have reported := Except.ok.inj scored
    rw [← reported, delivers]
    omega
  | netOutput =>
    rw [mode] at scored
    dsimp only at scored
    rw [computeNetAmountOut_eq_ok solved.output] at scored
    have reported := Except.ok.inj scored
    rw [← reported, delivers]

/-- **The single path is a floor.** -/
theorem keepsFloor_of_buildContext
    (keyed : ∀ view, request.market = .ok view → KeyedTokens view.base.tokens)
    (built : algorithm.inner.buildContext request = .ok ctx) :
    KeepsFloor display symbol displayFloat spotPrice algorithm clock request ctx := by
  intro single found
  have serves := serves_of_buildContext built keyed
  unfold findBestRoute
  rw [built]
  dsimp only [bind, Except.bind]
  rw [found]
  dsimp only
  split
  · rename_i split improved
    by_cases better : split.netAmountOut > single.netAmountOut
    · obtain ⟨charged, ends, files, netted⟩ := optimizeSplit_eq_some serves found improved
      obtain ⟨singleNet, measured, less⟩ := netByRule_single serves found
      refine ⟨split, by rw [if_pos better]; rfl, .inr ⟨_, singleNet, netByRule_eq_ok _ _ ends,
        measured, ?_⟩⟩
      rw [computeSplitNetAmountOut_eq_ok ends] at netted
      have reported := Except.ok.inj netted
      have cheaper := rate_le_of_charged charged files (runSpfa algorithm.inner ctx ∅
        request.order.amount (clock.relaxing 0)).1.spotProduct
      omega
    · exact ⟨single, by rw [if_neg better]; rfl, .inl rfl⟩
  · exact ⟨single, rfl, .inl rfl⟩

/-- **A solve never does worse than its single path, and nets splits by the single path's rule,
exactly where that rule finds every price it charges in the list.** -/
theorem neverWorse_iff_neverFallsBack [Inhabited P] (display : Address → String)
    (symbol : Token → String) (displayFloat : Binary64 → String)
    (spotPrice : SpotPriceFn P Binary64) (algorithm : PathFrankWolfeAlgorithm)
    (clock : SolveClock) (request : SolveRequest P Unit) (ctx : BellmanFordContext P)
    (keyed : ∀ view, request.market = .ok view → KeyedTokens view.base.tokens)
    (built : algorithm.inner.buildContext request = .ok ctx) :
    (KeepsFloor display symbol displayFloat spotPrice algorithm clock request ctx ∧
      MirrorsRule ctx) ↔ ctx.NeverFallsBack := by
  refine ⟨fun ⟨_, mirrors⟩ => neverFallsBack_of_mirrorsRule default mirrors, fun listed => ?_⟩
  exact ⟨keepsFloor_of_buildContext keyed built, listed.mirrorsRule⟩

end Floor

/-! ## Two pools and two price lists -/

/-- A constant-product pool that trades one way. -/
structure ReservePool where
  reserveIn : Nat
  reserveOut : Nat
  deriving DecidableEq, Inhabited

instance : ProtocolSim ReservePool where
  getAmountOut pool amountIn _ _ :=
    let amountOut := amountIn * pool.reserveOut / (pool.reserveIn + amountIn)
    .returned ⟨amountOut, 1, ⟨pool.reserveIn + amountIn, pool.reserveOut - amountOut⟩⟩

/-- The marginal price of a pool. -/
def reservePrice (pool : ReservePool) (_ _ : Token) : Except String Binary64 :=
  .ok ((Binary64.ofNat pool.reserveOut).div (.ofNat pool.reserveIn))

/-- A sale of 5000 of token 0 for token 1 to two pools of about 10000 each, with a price list. -/
def saleToTwoPools (prices : TokenGasPrices) : SolveRequest ReservePool Unit :=
  let pools := [("p", (⟨10000, 10000⟩ : ReservePool)), ("q", ⟨9000, 9000⟩)]
  let market : MarketState ReservePool := {
    components := mapOfList (pools.map fun pool => (pool.1, ⟨⟨pool.1, "", [0, 1], ∅⟩, [(0, 1)]⟩))
    simulationStates := mapOfList pools
    tokens := mapOfList [(0, ⟨0, 0⟩), (1, ⟨1, 0⟩)]
    gasPrice := some 50 }
  { graph := (PetgraphStableDiGraphManager.initializeGraph (mapOfList (pools.map fun pool =>
      (pool.1, (⟨[0, 1], [(0, 1)]⟩ : ComponentTopology))))).graph
    order := ⟨0, 1, 5000, .sell⟩
    market := .ok ⟨market, none⟩
    derived := some ⟨some prices, some fun _ _ _ => some 1.0⟩
    constraints := .default }

/-- Every token at the price of gas. -/
def bothListed : TokenGasPrices := fun _ => some ⟨1, 1⟩

/-- Only the token that is sold. -/
def inputListed : TokenGasPrices := fun token => if token = 0 then some ⟨1, 1⟩ else none

def splitSolver : PathFrankWolfeAlgorithm := ⟨⟨2, true, none⟩, .default⟩

/-- A clock that never runs out. -/
def patientClock : SolveClock := ⟨fun _ => false, fun _ _ => false⟩

def listedContext : BellmanFordContext ReservePool :=
  okValue (splitSolver.inner.buildContext (saleToTwoPools bothListed)) (by decide +kernel)

def unlistedContext : BellmanFordContext ReservePool :=
  okValue (splitSolver.inner.buildContext (saleToTwoPools inputListed)) (by decide +kernel)

private theorem keyedTokens_saleToTwoPools (prices : TokenGasPrices) :
    ∀ view, (saleToTwoPools prices).market = .ok view → KeyedTokens view.base.tokens := by
  intro view read
  cases read
  exact (keyedTokens_empty.insert ⟨0, 0⟩).insert ⟨1, 0⟩

/-- With both tokens listed the sale is split, and nets more than the 3283 of the single path. -/
theorem listed_sale_never_worse :
    (KeepsFloor (fun _ => "") (fun _ => "") (fun _ => "") reservePrice splitSolver patientClock
        (saleToTwoPools bothListed) listedContext ∧ MirrorsRule listedContext) ∧
      ∃ best, findBestRoute (fun _ => "") (fun _ => "") (fun _ => "") reservePrice splitSolver
        patientClock (saleToTwoPools bothListed) = .ok best ∧
        best.netAmountOut = 3857 ∧ best.route.swaps.length = 2 := by
  have built : splitSolver.inner.buildContext (saleToTwoPools bothListed) = .ok listedContext :=
    eq_ok_okValue _
  refine ⟨(neverWorse_iff_neverFallsBack _ _ _ _ _ _ _ _ (keyedTokens_saleToTwoPools _) built).mpr
    ?_, exists_ok_of_any (by decide +kernel)⟩
  intro gasPrice prices tokenIn inPrice token node product falls
  have table : listedContext.tokenPrices = some bothListed :=
    (builtFor_of_buildContext built).prices
  have unlisted := falls.unlisted
  rw [← Option.some.inj (table.symm.trans falls.table)] at unlisted
  cases unlisted

/-- With the output token unlisted, the single path is charged 50 for its gas, and the same route
as a split is charged nothing. -/
theorem unlisted_sale_not_mirrored :
    ∃ single, findSingleRoute splitSolver.inner unlistedContext ∅ ⟨0, 1, 5000, .sell⟩
        (fun _ => false) = .ok single ∧ single.route.OnePath ∧ single.netAmountOut = 3283 ∧
      (computeSplitNetAmountOut unlistedContext single.route).toOption = some 3333 ∧
      ¬MirrorsRule unlistedContext := by
  obtain ⟨single, found, ⟨nonempty, linked, distinct, described⟩, net, split, rule⟩ :
      ∃ single, findSingleRoute splitSolver.inner unlistedContext ∅ ⟨0, 1, 5000, .sell⟩
        (fun _ => false) = .ok single ∧
        (single.route.swaps ≠ [] ∧
          (single.route.swaps.IsChain fun earlier later => earlier.tokenOut = later.tokenIn) ∧
          (single.route.swaps.map Swap.tokenOut).Nodup ∧
          ∀ swap ∈ single.route.swaps,
            swap.tokenIn ∈ single.route.tokens ∧ swap.tokenOut ∈ single.route.tokens) ∧
        single.netAmountOut = 3283 ∧
        (computeSplitNetAmountOut unlistedContext single.route).toOption = some 3333 ∧
        (netByRule unlistedContext (runSpfa splitSolver.inner unlistedContext ∅ 5000
          (fun _ => false)).1.spotProduct single.route.finalAmount single.route).toOption =
            some 3283 := exists_ok_of_any (by decide +kernel)
  obtain ⟨_, _, _, _, _, built, _⟩ := findSingleRoute_built found
  have onePath : single.route.OnePath :=
    ⟨nonempty, linked, distinct, described, keyedTokens_of_buildRoute built⟩
  refine ⟨single, found, onePath, net, split, fun mirrors => ?_⟩
  rw [mirrors _ onePath _ (spotProducts_runSpfa splitSolver.inner unlistedContext ∅ 5000 _),
    rule] at split
  cases split

end Fynd
