import Fynd.BellmanFord.Forest

/-!
# Whether a found route executes as stated

The amounts of a route are read off the arrays. They are the amounts an execution of
its swaps delivers as long as every hop in the arrays is paid at the amount its source
holds now. A relaxation that rewrites a node breaks this for the hops that leave it,
unless their pools pay the same at the new amount (`SpfaStep.Repays`); later rounds
repair a hop only when relaxing it again improves its target.
-/

namespace Fynd

open Foundation Function

variable {P : Type}

/-- Each swap takes in what the one before it paid out, the first one the given amount. -/
def AmountsFlow : Nat → List (Swap P) → Prop
  | _, [] => True
  | amountIn, swap :: rest => swap.amountIn = amountIn ∧ AmountsFlow swap.amountOut rest

/-- Swaps read along a chain of hops hand their amounts on. -/
theorem amountsFlow_of_readsHop {ctx : BellmanFordContext P} {overrides : MarketOverrides P}
    {amount edgeGas : NodeIndex → Nat} {start node : NodeIndex} {path : List PathEdge}
    {swaps : List (Swap P)} (chained : Chained start path node)
    (reads : List.Forall₂ (ReadsHop ctx overrides amount edgeGas) path swaps) :
    AmountsFlow (amount start) swaps := by
  induction reads generalizing start with
  | nil => trivial
  | cons here _ ih =>
    obtain ⟨rfl, following⟩ := chained
    refine ⟨here.amountIn, ?_⟩
    rw [here.amountOut]
    exact ih following

variable [ProtocolSim P]

section Executes

variable (ctx : BellmanFordContext P) (overrides : MarketOverrides P)

/-- At the input of the swap, its pool pays the swap's output at the swap's gas. -/
def Swap.Paid (swap : Swap P) : Prop :=
  ∃ source ∈ ctx.tokenMap.keys, ∃ target ∈ ctx.tokenMap.keys,
    (ctx.tokenMap.lookup source).map Token.address = some swap.tokenIn ∧
      (ctx.tokenMap.lookup target).map Token.address = some swap.tokenOut ∧
      hopAnswer ctx overrides source target swap.componentId swap.amountIn =
        some (swap.amountOut, swap.gasEstimate)

/-- Executing the swaps in order on the given amount pays what the route states. -/
def Route.Executes (route : Route P) (amountIn : Nat) : Prop :=
  AmountsFlow amountIn route.swaps ∧ ∀ swap ∈ route.swaps, swap.Paid ctx overrides

/-- What the pools of a path pay for an amount, one after the other. -/
def runHops : Nat → List PathEdge → Option Nat
  | amountIn, [] => some amountIn
  | amountIn, edge :: rest =>
    match hopAnswer ctx overrides edge.1 edge.2.1 edge.2.2 amountIn with
    | none => none
    | some (amountOut, _) => runHops amountOut rest

instance decidableAmountsFlow :
    (amountIn : Nat) → (swaps : List (Swap P)) → Decidable (AmountsFlow amountIn swaps)
  | _, [] => isTrue trivial
  | amountIn, swap :: rest =>
    haveI := decidableAmountsFlow swap.amountOut rest
    inferInstanceAs (Decidable (swap.amountIn = amountIn ∧ AmountsFlow swap.amountOut rest))

instance (swap : Swap P) : Decidable (swap.Paid ctx overrides) := by
  unfold Swap.Paid
  infer_instance

instance (route : Route P) (amountIn : Nat) :
    Decidable (route.Executes ctx overrides amountIn) := by
  unfold Route.Executes
  infer_instance

end Executes

section Exact

variable (algorithm : BellmanFordAlgorithm) (ctx : BellmanFordContext P)
  (overrides : MarketOverrides P)

/-- Every hop in the arrays is paid at the amount its source holds. -/
def SpfaState.Exact (state : SpfaState) : Prop :=
  ∀ node source component, state.predecessor node = some (source, component) →
    hopAnswer ctx overrides source node component (state.amount source) =
      some (state.amount node, state.edgeGas node)

/-- A step leaves the hops out of the node it rewrites paid: at the amount it writes there,
their pools pay what the arrays already hold. -/
def SpfaStep.Repays (state : SpfaState) (step : SpfaStep) : Prop :=
  ∀ hop ∈ state.accepted algorithm ctx overrides step, ∀ node < ctx.maxIdx,
    ∀ pointer ∈ state.predecessor node, pointer.1 = hop.target →
      hopAnswer ctx overrides hop.target node pointer.2 hop.candidate.amount =
        some (state.amount node, state.edgeGas node)

instance (state : SpfaState) (step : SpfaStep) :
    Decidable (step.Repays algorithm ctx overrides state) := by
  unfold SpfaStep.Repays
  infer_instance

variable {algorithm ctx overrides} {amountIn : Nat} {state : SpfaState} {step : SpfaStep}

private theorem initialSpfa_exact : (initialSpfa ctx amountIn).Exact ctx overrides := by
  intro node source component pointer
  simp [initialSpfa] at pointer

private theorem SpfaState.step_exact_iff (forest : ForestInvariant ctx amountIn state)
    (guarded : step.Guarded ctx state) (exact : state.Exact ctx overrides) :
    (state.step algorithm ctx overrides step).Exact ctx overrides ↔
      step.Repays algorithm ctx overrides state := by
  cases outcome : state.accepted algorithm ctx overrides step with
  | none =>
    obtain ⟨amount, predecessor, gas, -⟩ := SpfaState.step_of_accepted_none outcome
    simp only [SpfaState.Exact, SpfaStep.Repays, amount, predecessor, gas, outcome]
    exact ⟨fun _ hop written => by simp at written, fun _ => exact⟩
  | some hop =>
    obtain ⟨amount, predecessor, gas, -⟩ := SpfaState.step_of_accepted_some outcome
    obtain ⟨-, above, upper, fresh, -⟩ := forest.accepted_fresh guarded outcome
    obtain ⟨-, -, paid, -⟩ := SpfaState.accepted_eq_some outcome
    have notSource : hop.source ≠ hop.target := fun same => fresh (same ▸ upper.end_mem)
    simp only [SpfaState.Exact, SpfaStep.Repays, amount, predecessor, gas, outcome]
    constructor
    · rintro after other ⟨⟩ node - ⟨source, component⟩ pointer ⟨⟩
      have notTarget : node ≠ hop.target := by
        rintro rfl
        exact forest.no_self_hop pointer
      have paidNow := after node hop.target component (by rwa [update_of_ne notTarget])
      rwa [update_self, update_of_ne notTarget,
        update_of_ne notTarget] at paidNow
    · intro repays node source component pointer
      by_cases rewritten : node = hop.target
      · subst rewritten
        rw [update_self] at pointer
        cases pointer
        rwa [update_of_ne notSource, update_self, update_self]
      · rw [update_of_ne rewritten] at pointer
        rw [update_of_ne rewritten, update_of_ne rewritten]
        by_cases below : source = hop.target
        · subst below
          rw [update_self]
          exact repays hop rfl node (forest.bounded node (by simp [pointer])) _ pointer rfl
        · rw [update_of_ne below]
          exact exact node source component pointer

/-! ## Exact arrays give routes that execute -/

variable {amount edgeGas : NodeIndex → Nat} {start node : NodeIndex} {path : List PathEdge}

/-- A swap that reads a paid hop is paid. -/
theorem ReadsHop.paid {edge : PathEdge} {swap : Swap P}
    (reads : ReadsHop ctx overrides amount edgeGas edge swap)
    (answer : hopAnswer ctx overrides edge.1 edge.2.1 edge.2.2 (amount edge.1) =
      some (amount edge.2.1, edgeGas edge.2.1)) : swap.Paid ctx overrides := by
  have known : ∀ node address, (ctx.tokenMap.lookup node).map Token.address = some address →
      node ∈ ctx.tokenMap.keys := by
    intro node address named
    refine AList.mem_keys.mp (AList.lookup_isSome.mp ?_)
    cases found : ctx.tokenMap.lookup node <;> simp [found] at named ⊢
  refine ⟨edge.1, known _ _ reads.tokenIn, edge.2.1, known _ _ reads.tokenOut, reads.tokenIn,
    reads.tokenOut, ?_⟩
  rw [reads.component, reads.amountIn, reads.amountOut, reads.gas, answer]

private theorem runHops_of_paid (chained : Chained start path node)
    (answers : ∀ edge ∈ path, hopAnswer ctx overrides edge.1 edge.2.1 edge.2.2 (amount edge.1) =
      some (amount edge.2.1, edgeGas edge.2.1)) :
    runHops ctx overrides (amount start) path = some (amount node) := by
  induction path generalizing start with
  | nil => exact congrArg (fun node => some (amount node)) chained
  | cons edge rest ih =>
    obtain ⟨rfl, following⟩ := chained
    simp only [runHops, answers edge List.mem_cons_self]
    exact ih following fun other member => answers other (List.mem_cons_of_mem _ member)

/-- In exact arrays every hop of a chain is paid. -/
theorem SpfaState.Exact.answers (exact : state.Exact ctx overrides) {hops : List PathEdge}
    (descent : Descends state.predecessor start node hops) :
    ∀ edge ∈ hops, hopAnswer ctx overrides edge.1 edge.2.1 edge.2.2 (state.amount edge.1) =
      some (state.amount edge.2.1, state.edgeGas edge.2.1) := fun edge member =>
  exact _ _ _ (descent.parent_of_mem edge member)

/-- **Routes execute as stated when no rewrite leaves a hop unpaid.** In a run the arrays are
exact after every step exactly when every step leaves the hops out of the node it rewrites paid,
and then every returned route and every reported path executes: the first swap takes in the
order amount, each later swap what the one before paid, and each pool pays what is stated. -/
theorem routes_execute_of_repaid (algorithm : BellmanFordAlgorithm) (ctx : BellmanFordContext P)
    (overrides : MarketOverrides P) (order : Order) (timedOut : Nat → Bool) :
    ((∀ entry ∈ spfaSteps algorithm ctx overrides order.amount timedOut,
        (entry.1.step algorithm ctx overrides entry.2).Exact ctx overrides) ↔
      ∀ entry ∈ spfaSteps algorithm ctx overrides order.amount timedOut,
        entry.2.Repays algorithm ctx overrides entry.1) ∧
    ((∀ entry ∈ spfaSteps algorithm ctx overrides order.amount timedOut,
        entry.2.Repays algorithm ctx overrides entry.1) →
      ∀ result, findSingleRoute algorithm ctx overrides order timedOut = .ok result →
        result.route.Executes ctx overrides order.amount) ∧
    ((∀ entry ∈ spfaSteps algorithm ctx ∅ order.amount timedOut,
        entry.2.Repays algorithm ctx ∅ entry.1) →
      ∀ address token,
        (reachFromSourceToken algorithm ctx order.amount timedOut).reached.lookup address =
          some token →
        runHops ctx ∅ order.amount token.hops = some token.amountOut) := by
  have exact (overrides : MarketOverrides P) := spfaSteps_keep_iff algorithm ctx overrides timedOut
    (initialSpfa_exact : (initialSpfa ctx order.amount).Exact ctx overrides) fun _ _ =>
      SpfaState.step_exact_iff
  refine ⟨(exact overrides).1, fun repaid result found => ?_,
    fun repaid address token found => ?_⟩
  · have forest := (spfaSteps_forest algorithm ctx overrides order.amount timedOut).2
    obtain ⟨tokenOut, path, -, -, reconstructed, reads⟩ := findSingleRoute_eq_ok found
    have descent := forest.reconstructPath_eq_ok_iff.mp reconstructed
    refine ⟨?_, fun swap member => ?_⟩
    · rw [← forest.input]
      exact amountsFlow_of_readsHop descent.chained reads
    · obtain ⟨edge, onPath, readsHere⟩ := exists_of_forall₂_right reads member
      exact readsHere.paid (((exact overrides).2 repaid).answers descent edge onPath)
  · have forest := (spfaSteps_forest algorithm ctx ∅ order.amount timedOut).2
    obtain ⟨node, -, amountOut, reconstructed⟩ := reachFromSourceToken_eq_some found
    have descent := forest.reconstructPath_eq_ok_iff.mp reconstructed
    rw [amountOut]
    nth_rewrite 1 [← forest.input]
    exact runHops_of_paid descent.chained (((exact ∅).2 repaid).answers descent)

end Exact

/-! ## A route that does not execute -/

/-- Token 3 is reached with the 100 that token 1 holds first. Token 1 is then rewritten to 300,
which the last pool refuses, so token 3 keeps its amount: the route states that the pool pays
100 for 300. -/
theorem detour_route_stale :
    threeHops.buildContext (linearRequest detourPools saleOfHundred) = .ok detourContext ∧
      ∃ result, findSingleRoute threeHops detourContext ∅ saleOfHundred (fun _ => false) =
          .ok result ∧
        (result.route.swaps.map fun swap => (swap.componentId, swap.amountIn, swap.amountOut)) =
          [("02", 100, 300), ("21", 300, 300), ("13", 300, 100)] ∧
        hopAnswer detourContext ∅ 1 3 "13" 300 = none ∧
        ¬ result.route.Executes detourContext ∅ saleOfHundred.amount :=
  ⟨eq_ok_okValue _, exists_ok_of_any (by decide +kernel)⟩

/-- A sale that rewrites a node, and whose every step leaves the later hops paid. -/
theorem improved_route_executes :
    (∀ entry ∈ improvedSteps, entry.2.Repays threeHops improvedContext ∅ entry.1) ∧
      improvedResult.route.swaps.length = 3 ∧
      improvedResult.route.Executes improvedContext ∅ saleOfHundred.amount := by
  have repaid : ∀ entry ∈ improvedSteps, entry.2.Repays threeHops improvedContext ∅ entry.1 := by
    decide +kernel
  exact ⟨repaid, by decide +kernel,
    (routes_execute_of_repaid threeHops improvedContext ∅ saleOfHundred fun _ => false).2.1 repaid
      improvedResult (eq_ok_okValue _)⟩

end Fynd
