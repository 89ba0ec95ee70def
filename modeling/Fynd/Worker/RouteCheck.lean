import Fynd.Feed.MarketIndexes
import Fynd.Split.Validation

/-!
# Which routes a worker returns

Before a worker returns a route it checks it once more: it must be well formed, meet the
filter of the request, and use no pool that is out of sync. Pools, protocols and tokens
are read off the swaps. That every path visits the required tokens is decided token by token:
with the token left out, the swaps must not lead to the output any more.
-/

namespace Fynd

open Foundation List

variable {P : Type}

/-- The text of an error. -/
def RouteValidationError.message (display : Address → String) : RouteValidationError → String
  | .emptyRoute => "route must contain at least one swap"
  | .disconnectedSwaps firstOut secondIn =>
    "swaps are not connected: " ++ display firstOut ++ " != " ++ display secondIn
  | .unsupportedCycle token first last =>
    "unsupported cycle: token " ++ display token ++ " appears more than once in route " ++
      display first ++ " -> ... -> " ++ display last ++
      " (only first == last cycles are supported)"
  | .invalidSplit reason => "invalid split route: " ++ reason
  | .disconnectedSplitEnd tokenOut terminalToken =>
    "disconnected split end: " ++ display tokenOut ++ " is not consumed by any later step " ++
      "in the route and is not the terminal token " ++ display terminalToken
  | .disconnectedSplitStart tokenIn startToken =>
    "disconnected split start: input " ++ display tokenIn ++ " is not reachable " ++
      "from start token " ++ display startToken

/-- Whether nothing is excluded or required. -/
def RouteConstraints.isEmpty (filter : RouteConstraints) : Bool :=
  filter.excludedPools = ∅ && filter.excludedProtocols = ∅ && filter.excludedTokens = ∅ &&
    filter.requiredTokens = ∅

/-! ## Required tokens -/

/-- What the swaps that take a token pay, but for the token avoided. -/
def outputsAvoiding (swaps : List (Swap P)) (avoided token : Address) : List Address :=
  (swaps.filter fun swap => swap.tokenIn = token && swap.tokenOut ≠ avoided).map Swap.tokenOut

/-- Follows the swaps from the tokens of the frontier, last in first out, for so many tokens at
most. -/
def visitAvoiding (swaps : List (Swap P)) (avoided : Address) :
    Nat → List Address → List Address → List Address
  | 0, reached, _ => reached
  | _ + 1, reached, [] => reached
  | fuel + 1, reached, token :: frontier =>
    let fresh := unseen reached (outputsAvoiding swaps avoided token)
    visitAvoiding swaps avoided fuel (reached ++ fresh) (fresh.reverse ++ frontier)

/-- Whether the swaps lead from the order's input to its output without the token avoided. -/
def reachesOutputAvoiding (route : Route P) (order : Order) (avoided : Address) : Bool :=
  order.tokenOut ∈ visitAvoiding route.swaps avoided (route.swaps.length + 1)
    [order.tokenIn] [order.tokenIn]

/-- Whether a path of the route skips a required token. An endpoint adds no constraint. -/
def routeBypassesRequiredTokens (route : Route P) (order : Order)
    (requiredTokens : Finset Address) : Bool :=
  ∃ token ∈ requiredTokens.filter fun token => token ≠ order.tokenIn ∧ token ≠ order.tokenOut,
    reachesOutputAvoiding route order token

/-! ## The check -/

section Check

variable (display : Address → String) (displaySplit : Binary64 → String)

/-- Checks a swap's pool, protocol and tokens against the filter of a request. -/
def validateSwapFilter (order : Order) (filter : RouteConstraints) (swap : Swap P) :
    Except String Unit :=
  if swap.componentId ∈ filter.excludedPools then
    .error ("route uses excluded pool " ++ swap.componentId)
  else
    let protocol := swap.protocolComponent.protocolSystem
    if ∃ entry ∈ filter.excludedProtocols, protocolMatches entry protocol then
      .error ("route uses excluded protocol " ++ protocol)
    else
      ([swap.tokenIn, swap.tokenOut].find? fun token =>
          token ≠ order.tokenIn && token ≠ order.tokenOut && token ∈ filter.excludedTokens).elim
        (.ok ()) fun token => .error ("route uses excluded intermediate token " ++ display token)

/-- Checks every leg of a route against the filter of a request. -/
def validateRouteFilter (route : Route P) (order : Order) (filter : RouteConstraints) :
    Except String Unit :=
  if filter.isEmpty then .ok ()
  else do
    route.swaps.forM (validateSwapFilter display order filter)
    if routeBypassesRequiredTokens route order filter.requiredTokens then
      .error "route reaches the output token without passing through every required token"
    else .ok ()

/-- Checks that a route is well formed, meets the filter and uses no unsynced pool. -/
def checkRoute (route : Route P) (order : Order) (filter : RouteConstraints)
    (constraints : ResolvedRouteConstraints) : Except String Unit := do
  (route.validate display displaySplit).mapError (RouteValidationError.message display)
  validateRouteFilter display route order filter
  (route.swaps.find? fun swap => constraints.isUnsyncedPool swap.componentId).elim (.ok ())
    fun swap => .error ("route uses pool " ++ swap.componentId ++ " of out-of-sync protocol " ++
      swap.protocolComponent.protocolSystem)

end Check

/-! ## What a request asks for -/

/-- A protocol system is the one an entry names, or of the family it names. -/
def OfProtocol (entry system : String) : Prop :=
  system = entry ∨ (entry.endsWith ":" ∧ entry.toList <+: system.toList)

/-- Swaps of a route that lead from one token to another, each taking what the one before pays. -/
def PathOfSwaps (swaps : List (Swap P)) (target : Address) :
    Address → List (Swap P) → Prop
  | source, [] => source = target
  | source, swap :: rest =>
    swap ∈ swaps ∧ swap.tokenIn = source ∧ PathOfSwaps swaps target swap.tokenOut rest

/-- **What a request asks of a route.** -/
structure MeetsFilter (route : Route P) (order : Order) (filter : RouteConstraints)
    (constraints : ResolvedRouteConstraints) : Prop where
  pools : ∀ swap ∈ route.swaps, swap.componentId ∉ filter.excludedPools
  protocols : ∀ swap ∈ route.swaps, ∀ entry ∈ filter.excludedProtocols,
    ¬ OfProtocol entry swap.protocolComponent.protocolSystem
  synced : ∀ swap ∈ route.swaps, swap.componentId ∉ constraints.unsyncedPools
  tokens : ∀ swap ∈ route.swaps, ∀ token, token = swap.tokenIn ∨ token = swap.tokenOut →
    token ≠ order.tokenIn → token ≠ order.tokenOut → token ∉ filter.excludedTokens
  required : ∀ path, PathOfSwaps route.swaps order.tokenOut order.tokenIn path →
    ∀ token ∈ filter.requiredTokens, token ∈ order.tokenIn :: path.map Swap.tokenOut

/-! ## The traversal -/

section Traversal

variable {swaps : List (Swap P)} {avoided source target token : Address}

private theorem mem_outputsAvoiding {next : Address} :
    next ∈ outputsAvoiding swaps avoided token ↔
      next ≠ avoided ∧ ∃ swap ∈ swaps, swap.tokenIn = token ∧ swap.tokenOut = next := by
  simp only [outputsAvoiding, mem_map, mem_filter, Bool.and_eq_true, decide_eq_true_eq]
  constructor
  · rintro ⟨swap, ⟨listed, takes, apart⟩, rfl⟩
    exact ⟨apart, swap, listed, takes, rfl⟩
  · rintro ⟨apart, swap, listed, takes, rfl⟩
    exact ⟨swap, ⟨listed, takes, apart⟩, rfl⟩

/-- A traversal that follows the rule of the worklist reaches what paths that avoid the token
lead to. -/
theorem mem_visitAvoiding_of_worklist {outputs : List Address} {fuel : Nat}
    {reached frontier : List Address}
    (listed : ∀ token, outputsAvoiding swaps avoided token ⊆ outputs)
    (worklist : Worklist (outputsAvoiding swaps avoided) outputs source fuel reached frontier) :
    token ∈ visitAvoiding swaps avoided fuel reached frontier ↔
      Relation.ReflTransGen (fun token next => next ∈ outputsAvoiding swaps avoided token)
        source token := by
  induction fuel generalizing reached frontier with
  | zero =>
    rw [worklist.pending_eq_nil] at worklist
    exact worklist.mem_iff
  | succ fuel ih =>
    cases frontier with
    | nil => exact worklist.mem_iff
    | cons first later =>
      refine ih (worklist.visit (listed first) ?_)
      exact ((reverse_perm _).append_right _).trans perm_append_comm

private theorem reflTransGen_iff_path :
    Relation.ReflTransGen (fun token next => next ∈ outputsAvoiding swaps avoided token)
        source target ↔
      ∃ path, PathOfSwaps swaps target source path ∧ avoided ∉ path.map Swap.tokenOut := by
  constructor
  · intro steps
    induction steps using Relation.ReflTransGen.head_induction_on with
    | refl => exact ⟨[], rfl, not_mem_nil⟩
    | head step _ ih =>
      obtain ⟨path, leads, avoids⟩ := ih
      obtain ⟨apart, swap, listed, rfl, rfl⟩ := mem_outputsAvoiding.mp step
      refine ⟨swap :: path, ⟨listed, rfl, leads⟩, ?_⟩
      rw [map_cons, mem_cons]
      exact fun hit => hit.elim (fun same => apart same.symm) avoids
  · rintro ⟨path, leads, avoids⟩
    induction path generalizing source with
    | nil =>
      obtain rfl : source = target := leads
      exact .refl
    | cons swap rest ih =>
      obtain ⟨listed, rfl, onward⟩ := leads
      rw [map_cons, mem_cons, not_or] at avoids
      exact .head (mem_outputsAvoiding.mpr ⟨Ne.symm avoids.1, swap, listed, rfl, rfl⟩)
        (ih onward avoids.2)

private theorem PathOfSwaps.target_mem {path : List (Swap P)}
    (leads : PathOfSwaps swaps target source path) : target ∈ source :: path.map Swap.tokenOut := by
  induction path generalizing source with
  | nil =>
    obtain rfl : source = target := leads
    exact mem_cons_self
  | cons swap rest ih => exact mem_cons_of_mem _ (ih leads.2.2)

/-- **The traversal finds the bypass.** It reaches the output exactly when a path of swaps from
the input to the output pays the token avoided nowhere. -/
theorem reachesOutputAvoiding_iff {route : Route P} {order : Order} :
    reachesOutputAvoiding route order avoided = true ↔
      ∃ path, PathOfSwaps route.swaps order.tokenOut order.tokenIn path ∧
        avoided ∉ path.map Swap.tokenOut := by
  have listed : ∀ token, outputsAvoiding route.swaps avoided token ⊆
      route.swaps.map Swap.tokenOut := fun token next member => by
    obtain ⟨-, swap, held, -, rfl⟩ := mem_outputsAvoiding.mp member
    exact mem_map_of_mem held
  have begins := Worklist.init (outputsAvoiding route.swaps avoided)
    (route.swaps.map Swap.tokenOut) order.tokenIn
  rw [length_map] at begins
  rw [reachesOutputAvoiding, decide_eq_true_eq, mem_visitAvoiding_of_worklist listed begins,
    reflTransGen_iff_path]

end Traversal

/-! ## The check decides the filter -/

section Decides

variable {route : Route P} {order : Order} {filter : RouteConstraints}
  {constraints : ResolvedRouteConstraints} {display : Address → String}

private theorem protocolMatches_iff {entry system : String} :
    protocolMatches entry system = true ↔ OfProtocol entry system := by
  unfold protocolMatches OfProtocol
  split
  · rename_i family
    rw [String.startsWith_string_iff]
    refine ⟨fun begins => .inr ⟨family, begins⟩, ?_⟩
    rintro (rfl | ⟨-, begins⟩)
    · exact prefix_rfl
    · exact begins
  · rename_i exact
    rw [beq_iff_eq]
    exact ⟨.inl, fun matched => matched.resolve_right fun family => exact family.1⟩

/-- What the check of one swap decides. -/
theorem validateSwapFilter_eq_ok_iff {swap : Swap P} :
    validateSwapFilter display order filter swap = .ok () ↔
      swap.componentId ∉ filter.excludedPools ∧
      (∀ entry ∈ filter.excludedProtocols,
        ¬ OfProtocol entry swap.protocolComponent.protocolSystem) ∧
      ∀ token, token = swap.tokenIn ∨ token = swap.tokenOut →
        token ≠ order.tokenIn → token ≠ order.tokenOut → token ∉ filter.excludedTokens := by
  unfold validateSwapFilter
  by_cases excluded : swap.componentId ∈ filter.excludedPools
  · simp [excluded]
  by_cases matched : ∃ entry ∈ filter.excludedProtocols,
      protocolMatches entry swap.protocolComponent.protocolSystem = true
  · obtain ⟨entry, listed, found⟩ := matched
    rw [if_neg excluded, if_pos ⟨entry, listed, found⟩]
    refine ⟨fun accepted => (by cases accepted), fun meets => ?_⟩
    exact absurd (protocolMatches_iff.mp found) (meets.2.1 entry listed)
  · have unmatched : ∀ entry ∈ filter.excludedProtocols,
        ¬ OfProtocol entry swap.protocolComponent.protocolSystem := fun entry listed found =>
      matched ⟨entry, listed, protocolMatches_iff.mpr found⟩
    rw [if_neg excluded, if_neg matched, find?_elim_eq_ok_iff, and_iff_right excluded,
      and_iff_right unmatched]
    simp only [mem_cons, not_mem_nil, or_false, Bool.and_eq_true, decide_eq_true_eq,
      not_and, and_imp]

private theorem routeBypassesRequiredTokens_eq_false_iff {requiredTokens : Finset Address} :
    routeBypassesRequiredTokens route order requiredTokens = false ↔
      ∀ path, PathOfSwaps route.swaps order.tokenOut order.tokenIn path →
        ∀ token ∈ requiredTokens, token ∈ order.tokenIn :: path.map Swap.tokenOut := by
  rw [routeBypassesRequiredTokens, decide_eq_false_iff_not]
  constructor
  · intro none path leads token needed
    by_contra skipped
    rw [mem_cons, not_or] at skipped
    have notLast : token ≠ order.tokenOut := by
      rintro rfl
      exact (mem_cons.mp leads.target_mem).elim skipped.1 skipped.2
    exact none ⟨token, Finset.mem_filter.mpr ⟨needed, skipped.1, notLast⟩,
      reachesOutputAvoiding_iff.mpr ⟨path, leads, skipped.2⟩⟩
  · rintro visits ⟨token, needed, bypass⟩
    obtain ⟨listed, notFirst, -⟩ := Finset.mem_filter.mp needed
    obtain ⟨path, leads, avoids⟩ := reachesOutputAvoiding_iff.mp bypass
    exact (mem_cons.mp (visits path leads token listed)).elim notFirst avoids

private theorem validateRouteFilter_eq_ok_iff :
    validateRouteFilter display route order filter = .ok () ↔
      (∀ swap ∈ route.swaps, validateSwapFilter display order filter swap = .ok ()) ∧
        routeBypassesRequiredTokens route order filter.requiredTokens = false := by
  unfold validateRouteFilter
  split
  · rename_i empty
    simp only [RouteConstraints.isEmpty, Bool.and_eq_true, decide_eq_true_eq] at empty
    obtain ⟨⟨⟨noPools, noProtocols⟩, noTokens⟩, noRequired⟩ := empty
    refine ⟨fun _ => ⟨fun swap _ => ?_, ?_⟩, fun _ => rfl⟩
    · rw [validateSwapFilter_eq_ok_iff, noPools, noProtocols, noTokens]
      simp
    · rw [routeBypassesRequiredTokens_eq_false_iff, noRequired]
      simp
  · rw [bind_eq_ok_iff, ← forM_eq_ok_iff]
    cases routeBypassesRequiredTokens route order filter.requiredTokens with
    | false => exact ⟨fun ⟨_, met, _⟩ => ⟨met, rfl⟩, fun ⟨met, _⟩ => ⟨(), met, rfl⟩⟩
    | true => exact ⟨fun ⟨_, _, refused⟩ => (by cases refused), fun met => (by cases met.2)⟩

end Decides

/-- **A worker returns what the request allows.** Of the well-formed routes, the check accepts
exactly those that meet the filter of the request and use no unsynced pool. -/
theorem checkRoute_eq_ok_iff_meetsFilter (display : Address → String)
    (displaySplit : Binary64 → String) (route : Route P) (order : Order)
    (filter : RouteConstraints) (constraints : ResolvedRouteConstraints)
    (wellFormed : route.validate display displaySplit = .ok ()) :
    checkRoute display displaySplit route order filter constraints = .ok () ↔
      MeetsFilter route order filter constraints := by
  have unsynced : ∀ swap : Swap P,
      constraints.isUnsyncedPool swap.componentId = true ↔
        swap.componentId ∈ constraints.unsyncedPools := fun swap => by
    simp [ResolvedRouteConstraints.isUnsyncedPool]
  have checks : checkRoute display displaySplit route order filter constraints = .ok () ↔
      validateRouteFilter display route order filter = .ok () ∧
        ∀ swap ∈ route.swaps, swap.componentId ∉ constraints.unsyncedPools := by
    simp only [checkRoute, wellFormed, bind_eq_ok_iff, find?_elim_eq_ok_iff, unsynced]
    exact ⟨fun ⟨_, _, _, met, synced⟩ => ⟨met, synced⟩,
      fun ⟨met, synced⟩ => ⟨(), rfl, (), met, synced⟩⟩
  rw [checks, validateRouteFilter_eq_ok_iff, routeBypassesRequiredTokens_eq_false_iff]
  simp only [validateSwapFilter_eq_ok_iff]
  constructor
  · rintro ⟨⟨swaps, required⟩, synced⟩
    exact ⟨fun swap listed => (swaps swap listed).1, fun swap listed => (swaps swap listed).2.1,
      synced, fun swap listed => (swaps swap listed).2.2, required⟩
  · intro meets
    exact ⟨⟨fun swap listed => ⟨meets.pools swap listed, meets.protocols swap listed,
      meets.tokens swap listed⟩, meets.required⟩, meets.synced⟩

/-! ## A split route with a required token -/

/-- A swap of one token for another through a pool of the protocol `uniswap_v3`. -/
def listedSwap (id : ComponentId) (tokenIn tokenOut : Address) (split : Binary64) : Swap Unit where
  componentId := id
  protocol := "uniswap_v3"
  tokenIn := tokenIn
  tokenOut := tokenOut
  amountIn := 10
  amountOut := 10
  gasEstimate := 1
  protocolComponent := ⟨id, "uniswap_v3", [tokenIn, tokenOut], ∅⟩
  protocolState := ()
  split := split

/-- The fraction one half. -/
def halfOfInput : Binary64 := Binary64.div 1 (Binary64.ofNat 2)

/-- Half of token 0 goes to token 1 and half to token 2, and both halves meet at token 3. -/
def forkedRoute : Route Unit where
  swaps := [listedSwap "a" 0 1 halfOfInput, listedSwap "b" 0 2 0, listedSwap "c" 1 3 0,
    listedSwap "d" 2 3 0, listedSwap "e" 3 4 0]
  tokens := ∅

/-- A sale of token 0 for token 4 by way of token 3, through neither pool x nor a fallback venue. -/
def saleByWayOfThree : Order × RouteConstraints :=
  (⟨0, 4, 20, .sell⟩, ⟨{"x"}, {"fallback:"}, {5}, {3}⟩)

/-- A route that forks and passes through the required token. -/
theorem forked_route_meets_filter :
    forkedRoute.validate toString (fun _ => "") = .ok () ∧
      MeetsFilter forkedRoute saleByWayOfThree.1 saleByWayOfThree.2 .default :=
  have wellFormed : forkedRoute.validate toString (fun _ => "") = .ok () := by decide +kernel
  ⟨wellFormed, (checkRoute_eq_ok_iff_meetsFilter toString (fun _ => "") forkedRoute
    saleByWayOfThree.1 saleByWayOfThree.2 .default wellFormed).mp (by decide +kernel)⟩

/-- With token 1 required the other half goes past it. -/
example : checkRoute toString (fun _ => "") forkedRoute ⟨0, 4, 20, .sell⟩ ⟨∅, ∅, ∅, {1}⟩
    .default =
      .error "route reaches the output token without passing through every required token" := by
  decide +kernel

end Fynd
