import Fynd.Worker.PostProcess

/-!
# The route a worker quotes after post-processing

Whatever its post-processors return, and whenever they run out of time, a worker quotes either the
route of its algorithm or one that passes its checks. The fallbacks are priced after the checks.
Pricing gives swaps their fallback and changes nothing that the checks read.
-/

namespace Fynd

open Foundation List

variable {P M : Type}

/-! ## What the checks do not read -/

/-- A swap without its fallback. -/
def Swap.clearFallback (swap : Swap P) : Swap P := { swap with fallback := none }

/-- A route without its fallbacks. -/
def Route.clearFallbacks (route : Route P) : Route P :=
  { route with swaps := route.swaps.map Swap.clearFallback, fallbackAmountOut := none }

section Collections

variable {T : Type} {change : T → T} {tokenIn : T → Address}

/-- Collections with every item changed. -/
def changeItems (change : T → T) (collections : List (Address × List T)) :
    List (Address × List T) :=
  collections.map fun collection => (collection.1, collection.2.map change)

private theorem fileUnder_changeItems (token : Address) (item : T)
    (collections : List (Address × List T)) :
    fileUnder token (change item) (changeItems change collections) =
      changeItems change (fileUnder token item collections) := by
  induction collections with
  | nil => rfl
  | cons collection rest ih =>
    simp only [changeItems, map_cons, fileUnder] at ih ⊢
    split_ifs
    · simp
    · simp [ih]

private theorem branchCollections_map (keeps : ∀ item, tokenIn (change item) = tokenIn item)
    (items : List T) :
    branchCollections tokenIn (items.map change) =
      changeItems change (branchCollections tokenIn items) := by
  induction items using List.reverseRecOn with
  | nil => rfl
  | append_singleton items item ih =>
    rw [map_append, map_cons, map_nil, branchCollections_append_singleton,
      branchCollections_append_singleton, ih, keeps, fileUnder_changeItems]

end Collections

private theorem forM_map_of_same {ε α β : Type} {change : α → β} {step : β → Except ε Unit}
    {original : α → Except ε Unit} (same : ∀ item, step (change item) = original item)
    (items : List α) : (items.map change).forM step = items.forM original := by
  induction items with
  | nil => rfl
  | cons item rest ih =>
    change (step (change item) >>= fun _ => (rest.map change).forM step) =
      (original item >>= fun _ => rest.forM original)
    rw [same, ih]

section Shape

variable (display : Address → String) (displaySplit : Binary64 → String)
  (collections : List (Address × List (Swap P))) (swaps : List (Swap P)) (route : Route P)

private theorem validateConnected_clearFallback :
    validateConnected (swaps.map Swap.clearFallback) = validateConnected swaps := by
  induction swaps with
  | nil => rfl
  | cons first rest ih =>
    cases rest with
    | nil => rfl
    | cons second rest =>
      simp only [map_cons, validateConnected] at ih ⊢
      rw [ih]
      rfl

private theorem validateTokens_clearFallback (first last : Address) (seen : List Address) :
    validateTokens first last seen (swaps.map Swap.clearFallback) =
      validateTokens first last seen swaps := by
  induction swaps generalizing seen with
  | nil => rfl
  | cons swap rest ih =>
    simp only [map_cons, validateTokens, ih, isEmpty_map]
    rfl

private theorem sumFractions_clearFallback (tokenIn : Address) (position : Nat) (sum : Binary64) :
    sumFractions display displaySplit tokenIn position sum (swaps.map Swap.clearFallback) =
      sumFractions display displaySplit tokenIn position sum swaps := by
  induction swaps generalizing position sum with
  | nil => rfl
  | cons swap rest ih =>
    cases rest with
    | nil => rfl
    | cons next rest =>
      simp only [map_cons, sumFractions] at ih ⊢
      rw [ih]
      rfl

private theorem validateFractions_clearFallback (tokenIn : Address) :
    validateFractions display displaySplit tokenIn (swaps.map Swap.clearFallback) =
      validateFractions display displaySplit tokenIn swaps := by
  match swaps with
  | [] => rfl
  | [single] => rfl
  | first :: second :: rest =>
    unfold validateFractions
    simp only [map_cons]
    rw [← map_cons, ← map_cons, sumFractions_clearFallback]

private theorem outputsOf_clearFallback (token : Address) :
    outputsOf (changeItems Swap.clearFallback collections) token = outputsOf collections token := by
  unfold outputsOf changeItems
  rw [find?_map]
  change ((collections.find? fun collection => collection.1 = token).map _).elim _ _ = _
  cases collections.find? fun collection => collection.1 = token with
  | none => rfl
  | some collection => exact map_map

private theorem visitTokens_clearFallback (fuel : Nat) (reachable frontier : List Address) :
    visitTokens (changeItems Swap.clearFallback collections) fuel reachable frontier =
      visitTokens collections fuel reachable frontier := by
  induction fuel generalizing reachable frontier with
  | zero => rfl
  | succ fuel ih =>
    cases frontier with
    | nil => rfl
    | cons token later => simp only [visitTokens, outputsOf_clearFallback, ih]

private theorem tokensOut_changeItems :
    ((changeItems Swap.clearFallback collections).flatMap fun collection =>
      collection.2.map Swap.tokenOut) =
        collections.flatMap fun collection => collection.2.map Swap.tokenOut := by
  simp only [changeItems, flatMap_map, map_map]
  rfl

private theorem validateBfsConnectivity_clearFallback (firstToken : Address) :
    validateBfsConnectivity (changeItems Swap.clearFallback collections) firstToken =
      validateBfsConnectivity collections firstToken := by
  unfold validateBfsConnectivity
  simp only [tokensOut_changeItems, visitTokens_clearFallback]
  rw [changeItems, find?_map]
  simp only [Function.comp_def]
  cases collections.find? fun collection => decide (collection.1 ∉ visitTokens collections
    ((collections.flatMap fun collection => collection.2.map Swap.tokenOut).length + 1)
      [firstToken] [firstToken]) <;> rfl

private theorem find?_clearFallback {refused : Swap P → Bool}
    (keeps : ∀ swap, refused swap.clearFallback = refused swap) :
    (swaps.map Swap.clearFallback).find? refused =
      (swaps.find? refused).map Swap.clearFallback := by
  rw [find?_map]
  exact congrArg (fun test => (swaps.find? test).map Swap.clearFallback) (funext keeps)

private theorem validateDeadEnds_clearFallback (terminalToken : Address) :
    validateDeadEnds (changeItems Swap.clearFallback collections) terminalToken =
      validateDeadEnds collections terminalToken := by
  have inputs : ((changeItems Swap.clearFallback collections).drop 1).map Prod.fst =
      (collections.drop 1).map Prod.fst := by
    simp [changeItems, Function.comp_def]
  have swaps : (changeItems Swap.clearFallback collections).flatMap Prod.snd =
      (collections.flatMap Prod.snd).map Swap.clearFallback := by
    simp [changeItems, flatMap_map, map_flatMap]
  unfold validateDeadEnds
  dsimp only
  rw [inputs, swaps, find?_clearFallback _ fun _ => rfl]
  generalize (collections.flatMap Prod.snd).find? _ = found
  cases found <;> rfl

private theorem findCycle_clearFallback (firstToken terminalToken : Address)
    (earlier : List Address) :
    findCycle firstToken terminalToken earlier (changeItems Swap.clearFallback collections) =
      findCycle firstToken terminalToken earlier collections := by
  induction collections generalizing earlier with
  | nil => rfl
  | cons collection rest ih =>
    simp only [changeItems, map_cons, findCycle] at ih ⊢
    rw [find?_clearFallback _ fun _ => rfl]
    generalize collection.2.find? _ = found
    cases found with
    | none => exact ih _
    | some => rfl

private theorem validateSplitAmounts_clearFallback :
    validateSplitAmounts display displaySplit (changeItems Swap.clearFallback collections) =
      validateSplitAmounts display displaySplit collections := by
  unfold validateSplitAmounts changeItems
  apply forM_map_of_same
  exact fun collection => validateFractions_clearFallback display displaySplit _ _

/-- A well formed route stays so with other fallbacks. -/
theorem validate_clearFallbacks :
    route.clearFallbacks.validate display displaySplit = route.validate display displaySplit := by
  have collections : branchCollections Swap.tokenIn (route.swaps.map Swap.clearFallback) =
      changeItems Swap.clearFallback (branchCollections Swap.tokenIn route.swaps) := by
    apply branchCollections_map
    exact fun _ => rfl
  have split : route.clearFallbacks.isSplit = route.isSplit := by
    simp only [Route.clearFallbacks, Route.isSplit, any_map]
    rfl
  have count : (changeItems Swap.clearFallback
      (branchCollections Swap.tokenIn route.swaps)).length =
        (branchCollections Swap.tokenIn route.swaps).length := length_map _
  unfold Route.validate
  rw [split]
  simp only [Route.clearFallbacks, head?_map, getLast?_map]
  cases route.swaps.head? with
  | none => rfl
  | some first =>
    cases route.swaps.getLast? with
    | none => rfl
    | some last =>
      simp only [Option.map_some, Route.validateSplitRoute, Route.validateSequentialRoute,
        validateConnected_clearFallback, validateTokens_clearFallback, collections,
        validateSplitAmounts_clearFallback, validateBfsConnectivity_clearFallback,
        validateDeadEnds_clearFallback, validateCycles, count, findCycle_clearFallback]
      rfl

private theorem outputsAvoiding_clearFallback (avoided token : Address) :
    outputsAvoiding (swaps.map Swap.clearFallback) avoided token =
      outputsAvoiding swaps avoided token := by
  unfold outputsAvoiding
  rw [filter_map, map_map]
  rfl

private theorem visitAvoiding_clearFallback (avoided : Address) (fuel : Nat)
    (reached frontier : List Address) :
    visitAvoiding (swaps.map Swap.clearFallback) avoided fuel reached frontier =
      visitAvoiding swaps avoided fuel reached frontier := by
  induction fuel generalizing reached frontier with
  | zero => rfl
  | succ fuel ih =>
    cases frontier with
    | nil => rfl
    | cons token later => simp only [visitAvoiding, outputsAvoiding_clearFallback, ih]

private theorem validateRouteFilter_clearFallbacks (order : Order) (filter : RouteConstraints) :
    validateRouteFilter display route.clearFallbacks order filter =
      validateRouteFilter display route order filter := by
  have swaps : route.clearFallbacks.swaps.forM (validateSwapFilter display order filter) =
      route.swaps.forM (validateSwapFilter display order filter) := by
    apply forM_map_of_same
    exact fun _ => rfl
  have reaches : ∀ token, reachesOutputAvoiding route.clearFallbacks order token =
      reachesOutputAvoiding route order token := by
    intro token
    simp only [reachesOutputAvoiding, Route.clearFallbacks, visitAvoiding_clearFallback, length_map]
  have bypasses : routeBypassesRequiredTokens route.clearFallbacks order filter.requiredTokens =
      routeBypassesRequiredTokens route order filter.requiredTokens := by
    refine decide_eq_decide.mpr ?_
    simp only [reaches]
  unfold validateRouteFilter
  rw [swaps, bypasses]

private theorem outputToken_clearFallbacks :
    route.clearFallbacks.outputToken = route.outputToken := by
  simp only [Route.outputToken, Route.clearFallbacks, getLast?_map, Option.map_map]
  rfl

private theorem amountOut_clearFallbacks (token : Address) :
    route.clearFallbacks.amountOut token = route.amountOut token := by
  simp only [Route.amountOut, Route.clearFallbacks, filter_map, map_map]
  rfl

private theorem routesThroughExclusive_clearFallbacks :
    routesThroughExclusive route.clearFallbacks.swaps = routesThroughExclusive route.swaps := by
  simp only [routesThroughExclusive, Route.clearFallbacks, any_map]
  rfl

end Shape

/-! ## Any post-processors -/

/-- A post-processor as a run sees it: whether the deadline has passed when its turn comes or while
it works, and the route it returns for the one it is given. -/
structure AnyPostProcessor (P : Type) where
  name : String
  late : Bool
  timesOut : Bool
  process : PostProcessRequest → RouteResult P → Option (RouteResult P)

/-- Runs post-processors in order, each on the last route returned before it. At the deadline the
rest is skipped. -/
def runAnyFrom (request : PostProcessRequest) (route : RouteResult P) :
    List (AnyPostProcessor P) → Progress P → Progress P
  | [], progress => progress
  | processor :: rest, progress =>
    if processor.late then progress
    else
      let returned := if processor.timesOut then none
        else processor.process request (progress.latest.getD route)
      runAnyFrom request route rest (returned.elim progress fun replacement =>
        { latest := some replacement
          postProcessedBy := progress.postProcessedBy ++ [processor.name] })

/-- Runs any post-processors on a route. -/
def runAnyPostProcessors (request : PostProcessRequest) (instances : List (AnyPostProcessor P))
    (route : RouteResult P) : Option (ProcessedRoute P) :=
  let final := runAnyFrom request route instances {}
  final.latest.map fun latest => ⟨latest, final.postProcessedBy⟩

section Workers

variable [ProtocolSim P] (display : Address → String) (displaySplit : Binary64 → String)
  (encodes : ProtocolComponent → P → Address → Address → Bool)

/-- A built-in post-processor in its turn. -/
def PostProcessor.asAny (userImprovementShareBps : Nat)
    (entry : PostProcessor × Turn P) : AnyPostProcessor P where
  name := entry.1.kind.name
  late := entry.2.late
  timesOut := entry.2.timesOut
  process := fun request route => entry.1.process userImprovementShareBps request entry.2 route

private theorem runAnyFrom_asAny (userImprovementShareBps : Nat) (request : PostProcessRequest)
    (route : RouteResult P) (instances : Turns P) (progress : Progress P) :
    runAnyFrom request route (instances.map (PostProcessor.asAny userImprovementShareBps))
        progress =
      runFrom userImprovementShareBps request route instances progress := by
  induction instances generalizing progress with
  | nil => rfl
  | cons entry rest ih =>
    simp only [map_cons, runAnyFrom, runFrom, ih]
    rfl

namespace SolverWorker

/-- Runs any post-processors on the algorithm's route, and returns the route to quote with the names
of those that made it. -/
def postProcessAny (worker : SolverWorker M) (task : QuoteTask P)
    (instances : List (AnyPostProcessor P)) (result : RouteResult P) :
    RouteResult P × List String :=
  match runAnyPostProcessors (worker.postProcessRequest task) instances result with
  | none => (result, [])
  | some processed =>
    match worker.acceptProcessed display displaySplit encodes task processed.route with
    | .ok accepted => (accepted, processed.postProcessedBy)
    | .error _ => (result, [])

/-- The built-in post-processors are a case. -/
theorem postProcessAny_asAny (worker : SolverWorker M) (task : QuoteTask P)
    (instances : Turns P) (result : RouteResult P) :
    worker.postProcessAny display displaySplit encodes task
        (instances.map (PostProcessor.asAny task.userImprovementShareBps)) result =
      worker.postProcess display displaySplit encodes task instances result := by
  unfold postProcessAny postProcess processedBy runAnyPostProcessors runPostProcessors
  exact runAnyFrom_asAny task.userImprovementShareBps _ result instances {} ▸ rfl

/-! ## What is claimed -/

/-- A route passes what a processed route is asked for: it is well formed and meets the request,
uses no component that the pool leaves out, and nets no more than it pays. A commitment stands on a
sale through an exclusive leg and is no more than the route pays, and a pool of public liquidity has
one wherever there is an exclusive leg. -/
structure Passes (worker : SolverWorker M) (task : QuoteTask P)
    (quoted : RouteResult P) : Prop where
  wellFormed : quoted.route.validate display displaySplit = .ok ()
  meetsFilter : validateRouteFilter display quoted.route task.order task.params.routeFilter = .ok ()
  keepsPool : ∀ swap ∈ quoted.route.swaps, shouldDropComponent
    (worker.postProcessScope task.params) worker.excludeProtocols swap.protocolComponent = false
  nets : task.order.isSell = true → ∃ token, quoted.route.outputToken = some token ∧
    quoted.netAmountOut ≤ quoted.route.amountOut token
  commits : ∀ commitment, quoted.commitment = some commitment → task.order.isSell = true ∧
    routesThroughExclusive quoted.route.swaps = true ∧
    ∃ token, quoted.route.outputToken = some token ∧
      commitment.committedAmountOut ≤ quoted.route.amountOut token
  isCommitted : worker.liquidityScope = .publicOnly →
    routesThroughExclusive quoted.route.swaps = true → quoted.commitment.isSome = true

variable {display displaySplit encodes} {worker : SolverWorker M} {task : QuoteTask P}
  {processed accepted : RouteResult P}

omit [ProtocolSim P] in
private theorem checkCommitment_eq_ok
    (checked : worker.checkCommitment task.order processed = .ok ()) :
    (∀ commitment, processed.commitment = some commitment → task.order.isSell = true ∧
      routesThroughExclusive processed.route.swaps = true ∧
      ∃ token, processed.route.outputToken = some token ∧
        commitment.committedAmountOut ≤ processed.route.amountOut token) ∧
    (worker.liquidityScope = .publicOnly → routesThroughExclusive processed.route.swaps = true →
      processed.commitment.isSome = true) := by
  unfold checkCommitment at checked
  cases committed : processed.commitment with
  | none =>
    rw [committed] at checked
    refine ⟨fun _ found => (nomatch found), fun scope leg => ?_⟩
    simp [scope, leg] at checked
  | some commitment =>
    rw [committed] at checked
    dsimp only at checked
    split_ifs at checked with buys plain above
    refine ⟨fun other found => ?_, fun _ _ => rfl⟩
    obtain rfl := Option.some.inj found
    refine ⟨by simpa using buys, by simpa using plain, ?_⟩
    cases ends : processed.route.outputToken with
    | none => simp [ends] at above
    | some token => exact ⟨token, rfl, by simpa [ends] using above⟩

omit [ProtocolSim P] in
private theorem passes_of_checks
    (route : checkRoute display displaySplit processed.route task.order task.params.routeFilter
      task.constraints = .ok ())
    (checked : worker.checkProcessedRoute task.order processed
      (worker.postProcessScope task.params) = .ok ()) :
    worker.Passes display displaySplit task processed := by
  obtain ⟨_, wellFormed, route⟩ := bind_eq_ok_iff.mp route
  obtain ⟨_, filtered, _⟩ := bind_eq_ok_iff.mp route
  obtain ⟨_, components, checked⟩ := bind_eq_ok_iff.mp checked
  obtain ⟨_, commitment, nets⟩ := bind_eq_ok_iff.mp checked
  have valid := mapError_eq_ok wellFormed
  obtain ⟨commits, isCommitted⟩ := checkCommitment_eq_ok commitment
  refine ⟨valid, filtered, fun swap member => ?_, fun sells => ?_, commits, isCommitted⟩
  · simpa using find?_elim_eq_ok_iff.mp components swap member
  · obtain ⟨_, last, _, placed, _⟩ := Route.validate_eq_ok valid
    have ends : processed.route.outputToken = some last.tokenOut := by
      rw [Route.outputToken, placed]
      rfl
    refine ⟨last.tokenOut, ends, ?_⟩
    unfold checkNetAmountOut at nets
    simp only [sells, ends, Bool.not_true, Bool.false_eq_true, if_false, Option.elim_some] at nets
    split_ifs at nets with above
    exact not_lt.mp above

omit [ProtocolSim P] in
/-- A route that passes does so with other fallbacks. -/
theorem Passes.of_clearFallbacks (passes : worker.Passes display displaySplit task processed)
    (same : accepted.route.clearFallbacks = processed.route.clearFallbacks)
    (net : accepted.netAmountOut = processed.netAmountOut)
    (commitment : accepted.commitment = processed.commitment) :
    worker.Passes display displaySplit task accepted := by
  have exclusive : routesThroughExclusive accepted.route.swaps =
      routesThroughExclusive processed.route.swaps := by
    rw [← routesThroughExclusive_clearFallbacks, same, routesThroughExclusive_clearFallbacks]
  have ends : accepted.route.outputToken = processed.route.outputToken := by
    rw [← outputToken_clearFallbacks, same, outputToken_clearFallbacks]
  have pays : ∀ token, accepted.route.amountOut token = processed.route.amountOut token := by
    intro token
    rw [← amountOut_clearFallbacks, same, amountOut_clearFallbacks]
  refine ⟨?_, ?_, fun swap member => ?_, ?_, ?_, ?_⟩
  · rw [← validate_clearFallbacks, same, validate_clearFallbacks]
    exact passes.wellFormed
  · rw [← validateRouteFilter_clearFallbacks, same, validateRouteFilter_clearFallbacks]
    exact passes.meetsFilter
  · have listed : swap.clearFallback ∈ processed.route.swaps.map Swap.clearFallback := by
      have swaps : accepted.route.swaps.map Swap.clearFallback =
          processed.route.swaps.map Swap.clearFallback := congrArg Route.swaps same
      rw [← swaps]
      exact mem_map_of_mem member
    obtain ⟨original, known, cleared⟩ := mem_map.mp listed
    have component : swap.protocolComponent = original.protocolComponent :=
      (congrArg Swap.protocolComponent cleared).symm
    rw [component]
    exact passes.keepsPool original known
  · simpa only [ends, pays, net] using passes.nets
  · simpa only [ends, pays, exclusive, commitment] using passes.commits
  · simpa only [exclusive, commitment] using passes.isCommitted

omit [ProtocolSim P] in
private theorem map_clearFallback_of_mapM {ε : Type} {choose : Swap P → Except ε (FallbackLeg P)}
    {swaps priced : List (Swap P)}
    (each : swaps.mapM (fun swap =>
      if swap.usesFallbackRouter then do
        let fallback ← choose swap
        return { swap with fallback := some fallback }
      else return swap) = .ok priced) :
    priced.map Swap.clearFallback = swaps.map Swap.clearFallback := by
  have pairs := mapM_eq_ok_iff.mp each
  clear each
  induction pairs with
  | nil => rfl
  | cons step _ ih =>
    rw [map_cons, map_cons, ih]
    congr 1
    split_ifs at step
    · obtain ⟨fallback, -, step⟩ := bind_eq_ok_iff.mp step
      rw [← Except.ok.inj step]
      rfl
    · rw [← Except.ok.inj step]

private theorem clearFallbacks_of_priceFallbackLegs {route priced : Route P}
    (done : worker.priceFallbackLegs display encodes task route = .ok priced) :
    priced.clearFallbacks = route.clearFallbacks := by
  unfold priceFallbackLegs at done
  split_ifs at done
  · rw [Except.ok.inj done]
  · obtain ⟨view, -, done⟩ := bind_eq_ok_iff.mp done
    obtain ⟨result, through, done⟩ := bind_eq_ok_iff.mp done
    obtain rfl := Except.ok.inj done
    obtain ⟨swaps, each, through⟩ := bind_eq_ok_iff.mp (mapError_eq_ok through)
    obtain ⟨replayed, -, through⟩ := bind_eq_ok_iff.mp through
    obtain ⟨replay, -, through⟩ := bind_eq_ok_iff.mp through
    obtain rfl := Except.ok.inj through
    simp only [Route.clearFallbacks, map_clearFallback_of_mapM each]

private theorem passes_of_acceptProcessed
    (done : worker.acceptProcessed display displaySplit encodes task processed = .ok accepted) :
    worker.Passes display displaySplit task accepted := by
  obtain ⟨⟨⟩, route, done⟩ := bind_eq_ok_iff.mp done
  obtain ⟨⟨⟩, checked, done⟩ := bind_eq_ok_iff.mp done
  obtain ⟨priced, pricing, done⟩ := bind_eq_ok_iff.mp done
  obtain rfl := Except.ok.inj done
  have passes := passes_of_checks (mapError_eq_ok route) (mapError_eq_ok checked)
  exact passes.of_clearFallbacks
    (clearFallbacks_of_priceFallbackLegs (mapError_eq_ok pricing)) rfl rfl

variable (display displaySplit encodes worker task) in
/-- **Post-processing cannot spoil a quote.** For any post-processors the worker returns the
algorithm's route with no names, or a route that passes. -/
theorem postProcessAny_keeps (instances : List (AnyPostProcessor P)) (result : RouteResult P) :
    worker.postProcessAny display displaySplit encodes task instances result = (result, []) ∨
      worker.Passes display displaySplit task
        (worker.postProcessAny display displaySplit encodes task instances result).1 := by
  unfold postProcessAny
  cases runAnyPostProcessors (worker.postProcessRequest task) instances result with
  | none => exact .inl rfl
  | some processed =>
    dsimp only
    cases done : worker.acceptProcessed display displaySplit encodes task processed.route with
    | error error => exact .inl rfl
    | ok accepted => exact .inr (passes_of_acceptProcessed done)

end SolverWorker

end Workers

end Fynd
