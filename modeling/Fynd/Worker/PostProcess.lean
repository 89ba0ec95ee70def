import Fynd.BellmanFord.LinearMarket
import Fynd.Fallback.Pricing
import Fynd.PostProcess.Pipeline
import Fynd.Worker.RouteCheck
import Fynd.Worker.SolverWorker

/-!
# A worker's post-processing

A worker runs its post-processors on the route that its algorithm returned, and checks the
route they end with. If that route fails a check, the worker quotes the algorithm's route: the
routes in between are not looked at.
-/

namespace Fynd

open Foundation List

variable {P M : Type}

/-- What a request asks of a solve. -/
structure SolveParams where
  routeFilter : RouteConstraints
  exclusiveAccess : ExclusiveAccess

/-- Why a processed route is refused. -/
inductive ProcessedRouteError
  | check (message : String)
  | pricing (error : SolveError)
  deriving DecidableEq, Repr

/-- What a worker is given to quote one order: the order, what the request asks and how it was
resolved, the fallback pools it knows, and the market it prices the fallbacks on. -/
structure QuoteTask (P : Type) where
  order : Order
  orderId : String := ""
  params : SolveParams
  constraints : ResolvedRouteConstraints
  fallbackPools : FallbackPoolIndex
  fallbackMarket : Except SolveError (MarketView P)
  userImprovementShareBps : Nat := 1000

namespace SolverWorker

/-- Checks that the commitment of a processed route can be pinned, and that a route with an
exclusive leg has one where nobody else commits it. -/
def checkCommitment (worker : SolverWorker M) (order : Order) (processed : RouteResult P) :
    Except String Unit :=
  let hasExclusiveLeg := routesThroughExclusive processed.route.swaps
  match processed.commitment with
  | none =>
    if hasExclusiveLeg && worker.liquidityScope = .publicOnly then
      .error "route has an exclusive leg but no commitment"
    else .ok ()
  | some commitment =>
    if !order.isSell then .error "commitment on an order that is not a sell order"
    else if !hasExclusiveLeg then .error "commitment on a route with no exclusive leg"
    else if (processed.route.outputToken.map processed.route.amountOut).all fun amountOut =>
        amountOut < commitment.committedAmountOut then
      .error ("commitment " ++ toString commitment.committedAmountOut ++
        " is above the route amount out")
    else .ok ()

/-- Checks that the output net of gas of a sell order is not above its output. -/
def checkNetAmountOut (order : Order) (processed : RouteResult P) : Except String Unit :=
  if !order.isSell then .ok ()
  else
    processed.route.outputToken.elim (.ok ()) fun outputToken =>
      let amountOut := processed.route.amountOut outputToken
      if (amountOut : Int) < processed.netAmountOut then
        .error ("net amount out " ++ toString processed.netAmountOut ++
          " is above the route amount out " ++ toString amountOut)
      else .ok ()

section

variable (worker : SolverWorker M)

/-- Checks what a post-processor can break: the components of the pool, the commitment, and the
output net of gas. -/
def checkProcessedRoute (order : Order)
    (processed : RouteResult P) (scope : LiquidityScope) : Except String Unit := do
  (processed.route.swaps.find? fun swap =>
      shouldDropComponent scope worker.excludeProtocols swap.protocolComponent).elim (.ok ())
    fun swap => .error ("route uses component " ++ swap.componentId ++
      " that this pool leaves out of its graph")
  worker.checkCommitment order processed
  checkNetAmountOut order processed

/-- The access the post-processors get. A pool that includes exclusive liquidity routes through it
already. -/
def postProcessExclusiveAccess (params : SolveParams) : ExclusiveAccess :=
  match worker.liquidityScope with
  | .publicOnly => params.exclusiveAccess
  | .includeExclusive => .denied

/-- The liquidity a processed route may use. -/
def postProcessScope (params : SolveParams) : LiquidityScope :=
  match worker.postProcessExclusiveAccess params with
  | .granted => .includeExclusive
  | .denied => worker.liquidityScope

/-- The request that the post-processors get. -/
def postProcessRequest (task : QuoteTask P) : PostProcessRequest where
  order := task.order
  constraints := task.constraints
  dropsComponent :=
    shouldDropComponent (worker.postProcessScope task.params) worker.excludeProtocols
  exclusiveAccess := worker.postProcessExclusiveAccess task.params

end

section Processing

variable [ProtocolSim P] (display : Address → String) (displaySplit : Binary64 → String)
  (encodes : ProtocolComponent → P → Address → Address → Bool)

section

variable (worker : SolverWorker M)

/-- Prices the fallback legs of a route, if it has any. -/
def priceFallbackLegs (task : QuoteTask P) (route : Route P) : Except SolveError (Route P) :=
  if !hasFallbackLeg route then .ok route
  else do
    let view ← task.fallbackMarket
    let priced ← (priceThroughFallbacks display encodes view task.fallbackPools
      task.params.routeFilter worker.algorithmExclusions route).mapError fun error =>
        .routeRejected task.orderId error.rejection
    return { priced.1 with fallbackAmountOut := some priced.2 }

/-- The checks of a processed route. What passes is the route with its fallbacks priced. -/
def acceptProcessed (task : QuoteTask P)
    (processed : RouteResult P) : Except ProcessedRouteError (RouteResult P) := do
  (checkRoute display displaySplit processed.route task.order task.params.routeFilter
    task.constraints).mapError .check
  (worker.checkProcessedRoute task.order processed
    (worker.postProcessScope task.params)).mapError .check
  let route ← (worker.priceFallbackLegs display encodes task processed.route).mapError .pricing
  return { processed with route := route }

/-- The route after the first post-processors: the last they returned, or none. -/
def processedBy (task : QuoteTask P) (instances : Turns P)
    (result : RouteResult P) : Option (ProcessedRoute P) :=
  runPostProcessors task.userImprovementShareBps (worker.postProcessRequest task) instances result

/-- Runs the post-processors on the algorithm's route, and returns the route to quote with the names
of those that made it. -/
def postProcess (task : QuoteTask P) (instances : Turns P)
    (result : RouteResult P) : RouteResult P × List String :=
  match worker.processedBy task instances result with
  | none => (result, [])
  | some processed =>
    match worker.acceptProcessed display displaySplit encodes task processed.route with
    | .ok accepted => (accepted, processed.postProcessedBy)
    | .error _ => (result, [])

end

/-! ## What post-processing keeps -/

section

variable (worker : SolverWorker M) (task : QuoteTask P)

/-- Every route that a run comes to, after any number of post-processors, carries a commitment if it
has an exclusive leg. -/
def CommitsExclusiveLegs (instances : Turns P) (result : RouteResult P) : Prop :=
  ∀ count processed, worker.processedBy task (instances.take count) result = some processed →
    routesThroughExclusive processed.route.route.swaps = true →
      processed.route.commitment.isSome = true

/-- A route passes the checks. -/
def Accepts (processed : RouteResult P) : Prop :=
  ∃ accepted, worker.acceptProcessed display displaySplit encodes task processed = .ok accepted

/-- The route to quote nets no less than the one that so many post-processors come to. -/
def NeverWorseThan (instances : Turns P) (result : RouteResult P) (count : Nat) : Prop :=
  ∀ processed, worker.processedBy task (instances.take count) result = some processed →
    processed.route.netAmountOut ≤
      (worker.postProcess display displaySplit encodes task instances result).1.netAmountOut

/-- The post-processors stand in an order that is accepted, the algorithm's route has no exclusive
leg, and those that look for quotes on request read no exclusive component. -/
structure StartsPublic (workerPool : String)
    (instances : Turns P) (result : RouteResult P) : Prop where
  accepted : checkPostProcessorOrder workerPool
    ((instances.map fun entry => entry.1.kind).map BuiltIn.name) = .ok ()
  plain : routesThroughExclusive result.route.swaps = false
  uses : ∀ entry ∈ instances, entry.1.UsesPublic (worker.postProcessRequest task) entry.2

/-- **What post-processing owes.** Exclusive legs are committed if it starts public. Whatever it
starts from, the route to quote nets no less than the algorithm's, and no less than any in between
if the last one passes the checks. -/
structure KeepsCommitments (workerPool : String)
    (instances : Turns P) (result : RouteResult P) : Prop where
  commits : worker.StartsPublic task workerPool instances result →
    worker.CommitsExclusiveLegs task instances result
  input : result.netAmountOut ≤
    (worker.postProcess display displaySplit encodes task instances result).1.netAmountOut
  earlier : (∀ final, worker.processedBy task instances result = some final →
      worker.Accepts display displaySplit encodes task final.route) →
    ∀ count, worker.NeverWorseThan display displaySplit encodes task instances result count

end

variable {display displaySplit encodes} {worker : SolverWorker M} {task : QuoteTask P}
  {instances : Turns P} {result : RouteResult P}

private theorem netAmountOut_of_acceptProcessed {processed accepted : RouteResult P}
    (done : worker.acceptProcessed display displaySplit encodes task processed = .ok accepted) :
    accepted.netAmountOut = processed.netAmountOut := by
  obtain ⟨_, _, done⟩ := bind_eq_ok_iff.mp done
  obtain ⟨_, _, done⟩ := bind_eq_ok_iff.mp done
  obtain ⟨route, _, done⟩ := bind_eq_ok_iff.mp done
  cases done
  rfl

private theorem postProcess_cases :
    (worker.postProcess display displaySplit encodes task instances result).1 = result ∨
      ∃ processed, worker.processedBy task instances result = some processed ∧
        (worker.postProcess display displaySplit encodes task instances result).1.netAmountOut =
          processed.route.netAmountOut := by
  unfold postProcess
  split
  · exact .inl rfl
  · rename_i processed ran
    split
    · rename_i accepted checked
      exact .inr ⟨processed, ran, netAmountOut_of_acceptProcessed checked⟩
    · exact .inl rfl

variable (worker task instances result) in
/-- What a run of the worker comes to. -/
def progressOf : Progress P :=
  runFrom task.userImprovementShareBps (worker.postProcessRequest task) result instances {}

private theorem latest_of_processedBy {processed : ProcessedRoute P}
    (ran : worker.processedBy task instances result = some processed) :
    (worker.progressOf task instances result).latest = some processed.route := by
  obtain ⟨latest, ends, rfl⟩ := Option.map_eq_some_iff.mp ran
  exact ends

private theorem netAmountOut_le_processedBy {final : ProcessedRoute P}
    (ends : worker.processedBy task instances result = some final) :
    result.netAmountOut ≤ final.route.netAmountOut := by
  have moves : ({} : Progress P).Precedes result
      (worker.progressOf task instances result) := precedes_runFrom instances {}
  have nets := moves.nets
  rwa [latest_of_processedBy ends] at nets

/-- Where the first post-processors come to a route, all of them do, and to one that nets no
less. -/
theorem exists_processedBy_of_take {earlier : ProcessedRoute P} {count : Nat}
    (ran : worker.processedBy task (instances.take count) result = some earlier) :
    ∃ final, worker.processedBy task instances result = some final ∧
      earlier.route.netAmountOut ≤ final.route.netAmountOut := by
  have moves : (worker.progressOf task (instances.take count) result).Precedes result
      (worker.progressOf task instances result) := precedes_take_runFrom instances count {}
  have returned := moves.returned
  have nets := moves.nets
  rw [latest_of_processedBy ran] at returned nets
  obtain ⟨latest, ends⟩ := Option.isSome_iff_exists.mp (returned rfl)
  rw [ends] at nets
  exact ⟨_, Option.map_eq_some_iff.mpr ⟨latest, ends, rfl⟩, nets⟩

end Processing

/-- **Post-processing keeps commitments**, in every order of the post-processors and from every
route of the algorithm. -/
theorem keeps_commitments [ProtocolSim P] (display : Address → String)
    (displaySplit : Binary64 → String) (encodes : ProtocolComponent → P → Address → Address → Bool)
    (worker : SolverWorker M) (task : QuoteTask P) (workerPool : String)
    (instances : Turns P) (result : RouteResult P) :
    worker.KeepsCommitments display displaySplit encodes task workerPool instances result where
  commits := by
    intro starts count processed ran leg
    refine committed_of_runFrom ?_ ?_ ?_ (latest_of_processedBy ran) leg
    · rw [map_take]
      exact (isChain_of_checkPostProcessorOrder starts.accepted).take count
    · exact fun entry member => starts.uses entry (mem_of_mem_take member)
    · exact starts.plain
  input := by
    obtain same | ⟨final, ends, same⟩ :=
      @postProcess_cases _ _ _ display displaySplit encodes worker task instances result
    · rw [same]
    · rw [same]
      exact netAmountOut_le_processedBy ends
  earlier := by
    intro passes count processed ran
    obtain ⟨final, ends, nets⟩ := exists_processedBy_of_take ran
    obtain ⟨quoted, checked⟩ := passes final ends
    have same : (worker.postProcess display displaySplit encodes task instances result).1 =
        quoted := by
      unfold postProcess
      rw [ends]
      dsimp only
      rw [checked]
    rw [same, netAmountOut_of_acceptProcessed checked]
    exact nets

end SolverWorker

/-! ## Two hops -/

section Samples

/-- A component of a sample market, with its pool. -/
structure SamplePool where
  component : ProtocolComponent
  pool : LinearPool

def listedPool (id : ComponentId) (protocolSystem : String) (tokenIn tokenOut : Address)
    (percent limit : Nat) : SamplePool :=
  ⟨⟨id, protocolSystem, [tokenIn, tokenOut], ∅⟩, .between tokenIn tokenOut percent limit⟩

def exclusiveEntry : SamplePool :=
  ⟨⟨"x", "exclusive:ekubo_v3", [0, 1], (∅ : Map String (List UInt8)).insert "is_exclusive" [1]⟩,
    .between 0 1 300 10000⟩

def publicEntry : SamplePool := listedPool "p" "uniswap_v2" 0 1 200 10000

/-- A public pool from token 1 to token 2, up to a limit. -/
def publicExit (limit : Nat) : SamplePool := listedPool "q" "uniswap_v2" 1 2 100 limit

/-- A pool from token 1 to token 2 that quotes on request, through its fallback router. -/
def quotedExit : SamplePool := listedPool "r" "fallback:rfq:bebop" 1 2 150 10000

/-- The same pool, marked as exclusive. -/
def markedExit : SamplePool :=
  { quotedExit with component := { quotedExit.component with
      staticAttributes := exclusiveEntry.component.staticAttributes } }

def marketOf (pools : List SamplePool) : MarketView LinearPool where
  base :=
    { components := mapOfList (pools.map fun entry =>
        (entry.component.id, ⟨entry.component, everySwapDirection entry.component.tokens⟩))
      simulationStates := mapOfList (pools.map fun entry => (entry.component.id, entry.pool))
      tokens := mapOfList ([0, 1, 2].map fun token => (token, ⟨token, 18⟩))
      gasPrice := none }
  overlay := none

def sampleView (limit : Nat) : MarketView LinearPool :=
  marketOf [exclusiveEntry, publicEntry, publicExit limit, quotedExit]

def sampleSwap (entry : SamplePool) (tokenIn tokenOut : Address) (amountIn amountOut : Nat) :
    Swap LinearPool where
  componentId := entry.component.id
  protocol := entry.component.protocolSystem
  tokenIn := tokenIn
  tokenOut := tokenOut
  amountIn := amountIn
  amountOut := amountOut
  gasEstimate := 1
  protocolComponent := entry.component
  protocolState := entry.pool

/-- The route through an entry and the public exit that an algorithm returned for an amount. -/
def algorithmRoute (entry : SamplePool) (percent limit amount : Nat) : RouteResult LinearPool where
  route :=
    { swaps := [sampleSwap entry 0 1 amount (amount * percent / 100),
        sampleSwap (publicExit limit) 1 2 (amount * percent / 100) (amount * percent / 100)]
      tokens := mapOfList ([0, 1, 2].map fun token => (token, ⟨token, 18⟩)) }
  netAmountOut := amount * percent / 100 - 2
  gasPrice := 1

/-- A sale of an amount of token 0 for token 2, with access to exclusive liquidity. -/
def saleTask (limit amount : Nat) : QuoteTask LinearPool where
  order := ⟨0, 2, amount, .sell⟩
  params := ⟨⟨∅, ∅, ∅, ∅⟩, .granted⟩
  constraints := .default
  fallbackPools := ⟨(∅ : Map (Address × Address) (List ComponentId)).insert (1, 2) ["q"],
    (∅ : Map ComponentId (List (Address × Address))).insert "q" [(1, 2)]⟩
  fallbackMarket := .ok (sampleView limit)

def sampleWorker (liquidityScope : LiquidityScope) : SolverWorker Unit :=
  ⟨(), true, liquidityScope, [], [], true⟩

def indexOf (entry : SamplePool) : ReplacementComponentIndex where
  byToken := mapOfList (entry.component.tokens.map fun token => (token, [entry.component.id]))
  tokensOf := (∅ : Map ComponentId (List Address)).insert entry.component.id entry.component.tokens

/-- A replacer that knows one pool of a market. -/
def replacerOf (kind : BuiltIn) (entry : SamplePool) (view : MarketView LinearPool) :
    PostProcessor × Turn LinearPool :=
  (⟨kind, indexOf entry⟩, { market := .ok view, readings := 100 })

/-- The replacer that looks for quotes on request, then the one for exclusive swaps. -/
def bothReplacers (limit : Nat) : List (PostProcessor × Turn LinearPool) :=
  [replacerOf .rfqSwapReplacer quotedExit (sampleView limit),
    replacerOf .exclusiveSwapReplacer exclusiveEntry (sampleView limit)]

/-- A replacer that looks for quotes on request and finds a pool that is marked as exclusive. -/
def markedReplacer : List (PostProcessor × Turn LinearPool) :=
  [replacerOf .rfqSwapReplacer markedExit (marketOf [publicEntry, publicExit 10000, markedExit])]

/-- The texts of addresses and splits are not read. -/
def plainDisplay (_ : Address) : String := ""

def plainSplit (_ : Binary64) : String := ""

def encodesAll (_ : ProtocolComponent) (_ : LinearPool) (_ _ : Address) : Bool := true

private theorem lists_indexOf_quotedExit {id : ComponentId}
    (lists : (indexOf quotedExit).Lists id) : id = "r" := by
  obtain ⟨token, ids, found, member⟩ := lists
  have entries : (indexOf quotedExit).byToken = mapOfList [(1, ["r"]), (2, ["r"])] := rfl
  rw [entries, mapOfList, foldl_cons, foldl_cons, foldl_nil, lookup_insert_ite,
    lookup_insert_ite] at found
  split at found
  · cases found
    exact mem_singleton.mp member
  · split at found
    · cases found
      exact mem_singleton.mp member
    · cases found

/-- In the sample market the replacer that looks for quotes on request reads no exclusive
component. -/
theorem usesPublic_bothReplacers (limit : Nat) (request : PostProcessRequest) :
    ∀ entry ∈ bothReplacers limit, entry.1.UsesPublic request entry.2 := by
  intro entry member
  obtain rfl | member := mem_cons.mp member
  · intro _ view read id component lists known _
    cases read
    obtain rfl := lists_indexOf_quotedExit lists
    have stored : (sampleView limit).getComponent "r" = some quotedExit.component := rfl
    rw [stored] at known
    cases known
    rfl
  · obtain rfl := mem_singleton.mp member
    intro kind
    cases kind

/-- The quote on request replaces the exit, the exclusive swap the entry, and the route is
committed. -/
theorem both_replacers_keep_commitments :
    (sampleWorker .publicOnly).StartsPublic (saleTask 10000 1000) "pool" (bothReplacers 10000)
        (algorithmRoute publicEntry 200 10000 1000) ∧
      (sampleWorker .publicOnly).CommitsExclusiveLegs (saleTask 10000 1000) (bothReplacers 10000)
        (algorithmRoute publicEntry 200 10000 1000) := by
  have starts : (sampleWorker .publicOnly).StartsPublic (saleTask 10000 1000) "pool"
      (bothReplacers 10000) (algorithmRoute publicEntry 200 10000 1000) :=
    ⟨rfl, rfl, usesPublic_bothReplacers 10000 _⟩
  exact ⟨starts, (SolverWorker.keeps_commitments plainDisplay plainSplit encodesAll
    (sampleWorker .publicOnly) (saleTask 10000 1000) "pool" (bothReplacers 10000)
    (algorithmRoute publicEntry 200 10000 1000)).commits starts⟩

/-- A run that comes to a route with an exclusive leg and no commitment. -/
theorem not_commitsExclusiveLegs {worker : SolverWorker Unit} {task : QuoteTask LinearPool}
    {instances : List (PostProcessor × Turn LinearPool)} {result : RouteResult LinearPool}
    (uncommitted : (worker.processedBy task (instances.take 1) result).any (fun processed =>
      routesThroughExclusive processed.route.route.swaps &&
        !processed.route.commitment.isSome) = true) :
    ¬worker.CommitsExclusiveLegs task instances result := by
  intro commits
  obtain ⟨route, ran, found⟩ := (Option.any_eq_true _ _).mp uncommitted
  rw [Bool.and_eq_true] at found
  have committed := commits 1 route ran found.1
  rw [committed] at found
  exact absurd found.2 (by decide)

/-- **Neither half holds of every pool.** A pool that includes exclusive liquidity leaves the
commitment to the router. A pool that quotes on request may be marked as exclusive: the replacer
takes it without a commitment. In a pool with both replacers the last route may fail the checks
after the first one's passed them, and the algorithm's route is quoted. -/
theorem uncommitted_leg_and_forgotten_route :
    (checkPostProcessorOrder "pool" ["rfq_swap_replacer"] = .ok () ∧
      ¬(sampleWorker .includeExclusive).CommitsExclusiveLegs (saleTask 10000 500)
        ((bothReplacers 10000).take 1) (algorithmRoute exclusiveEntry 300 10000 500)) ∧
    (routesThroughExclusive (algorithmRoute publicEntry 200 10000 1000).route.swaps = false ∧
      ¬(sampleWorker .publicOnly).CommitsExclusiveLegs (saleTask 10000 1000) markedReplacer
        (algorithmRoute publicEntry 200 10000 1000)) ∧
    (checkPostProcessorOrder "pool" ["rfq_swap_replacer", "exclusive_swap_replacer"] = .ok () ∧
      (∃ processed, (sampleWorker .publicOnly).processedBy (saleTask 2500 1000)
          ((bothReplacers 2500).take 1) (algorithmRoute publicEntry 200 2500 1000) =
            some processed ∧
        (sampleWorker .publicOnly).Accepts plainDisplay plainSplit encodesAll
          (saleTask 2500 1000) processed.route) ∧
      ¬(sampleWorker .publicOnly).NeverWorseThan plainDisplay plainSplit encodesAll
        (saleTask 2500 1000) (bothReplacers 2500) (algorithmRoute publicEntry 200 2500 1000)
          1) := by
  have forgotten : ((sampleWorker .publicOnly).processedBy (saleTask 2500 1000)
      ((bothReplacers 2500).take 1) (algorithmRoute publicEntry 200 2500 1000)).any
        (fun processed =>
          ((sampleWorker .publicOnly).acceptProcessed plainDisplay plainSplit encodesAll
            (saleTask 2500 1000) processed.route).toOption.isSome &&
          decide (((sampleWorker .publicOnly).postProcess plainDisplay plainSplit encodesAll
            (saleTask 2500 1000) (bothReplacers 2500)
            (algorithmRoute publicEntry 200 2500 1000)).1.netAmountOut <
              processed.route.netAmountOut)) = true := by decide +kernel
  obtain ⟨first, runs, passes⟩ := (Option.any_eq_true _ _).mp forgotten
  rw [Bool.and_eq_true] at passes
  refine ⟨⟨rfl, not_commitsExclusiveLegs (by decide +kernel)⟩,
    ⟨rfl, not_commitsExclusiveLegs (by decide +kernel)⟩, rfl, ⟨first, runs, ?_⟩, fun never => ?_⟩
  · exact ⟨_, eq_ok_okValue passes.1⟩
  · exact absurd (never first runs) (not_le.mpr (of_decide_eq_true passes.2))

end Samples

end Fynd
