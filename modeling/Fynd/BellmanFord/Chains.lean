import Fynd.BellmanFord.Forest

/-!
# What the chains of a run satisfy

The conflict check and the number of rounds constrain a hop at the moment it is
written. A later rewrite above it exchanges the first part of its chain, and nothing
checks the whole again. A property of chains therefore holds along a run exactly when
every written hop, with the chain of its source before it and any chain that hangs
below its target after it, has the property (`spfaSteps_chains_iff`). Length and
freedom from repeated components are the two properties a route is expected to have.
-/

namespace Fynd

open Foundation

variable {P : Type}

/-- The hops by which a node hangs below another, if it does. -/
def SpfaState.hopsBelow (ctx : BellmanFordContext P) (state : SpfaState)
    (start node : NodeIndex) : Option (List PathEdge) :=
  (reconstructPath node start state.predecessor ctx.maxIdx).toOption

/-- Every chain from the source token has a property. -/
def SpfaState.ChainsSatisfy (ctx : BellmanFordContext P) (good : List PathEdge → Prop)
    (state : SpfaState) : Prop :=
  ∀ node hops, Descends state.predecessor ctx.tokenInNode node hops → good hops

/-- No component carries two of the hops. -/
def NoComponentTwice (hops : List PathEdge) : Prop := (hops.map fun hop => hop.2.2).Nodup

instance : DecidablePred NoComponentTwice := fun _ =>
  inferInstanceAs (Decidable (List.Nodup _))

/-- At most so many hops. -/
def WithinHops (maxHops : Nat) (hops : List PathEdge) : Prop := hops.length ≤ maxHops

instance (maxHops : Nat) : DecidablePred (WithinHops maxHops) := fun _ =>
  inferInstanceAs (Decidable (_ ≤ _))

private theorem ForestInvariant.hopsBelow_eq_some_iff {ctx : BellmanFordContext P} {amountIn : Nat}
    {state : SpfaState} (forest : ForestInvariant ctx amountIn state) {start node : NodeIndex}
    {hops : List PathEdge} :
    state.hopsBelow ctx start node = some hops ↔ Descends state.predecessor start node hops := by
  rw [← forest.reconstructPath_eq_ok_iff, SpfaState.hopsBelow]
  cases reconstructPath node start state.predecessor ctx.maxIdx <;> simp [Except.toOption]

variable [ProtocolSim P]

section Steps

variable (algorithm : BellmanFordAlgorithm) (ctx : BellmanFordContext P)
  (overrides : MarketOverrides P) (good : List PathEdge → Prop)

/-- The hop a step writes has a property together with the chain of its source and with every
chain that hangs below its target. -/
def SpfaStep.KeepsChains (state : SpfaState) (step : SpfaStep) : Prop :=
  ∀ hop ∈ state.accepted algorithm ctx overrides step,
    ∀ above ∈ state.hopsBelow ctx ctx.tokenInNode hop.source, ∀ node < ctx.maxIdx,
      ∀ below ∈ state.hopsBelow ctx hop.target node,
        good (above ++ (hop.source, hop.target, hop.component) :: below)

instance [DecidablePred good] (state : SpfaState) (step : SpfaStep) :
    Decidable (step.KeepsChains algorithm ctx overrides good state) := by
  unfold SpfaStep.KeepsChains
  infer_instance

variable {algorithm ctx overrides good} {amountIn : Nat} {state : SpfaState} {step : SpfaStep}

omit [ProtocolSim P] in
private theorem initialSpfa_chains (trivialChain : good []) :
    (initialSpfa ctx amountIn).ChainsSatisfy ctx good := by
  intro node hops descent
  obtain ⟨-, rfl⟩ | ⟨_, _, _, _, pointer, _⟩ := descent.eq_nil_or_parent
  · exact trivialChain
  · simp [initialSpfa] at pointer

private theorem SpfaState.step_chains_iff (forest : ForestInvariant ctx amountIn state)
    (guarded : step.Guarded ctx state) (chains : state.ChainsSatisfy ctx good) :
    (state.step algorithm ctx overrides step).ChainsSatisfy ctx good ↔
      step.KeepsChains algorithm ctx overrides good state := by
  cases outcome : state.accepted algorithm ctx overrides step with
  | none =>
    obtain ⟨-, predecessor, -⟩ := SpfaState.step_of_accepted_none outcome
    simp only [SpfaState.ChainsSatisfy, SpfaStep.KeepsChains, predecessor, outcome]
    exact ⟨fun _ hop written => by simp at written, fun _ => chains⟩
  | some hop =>
    obtain ⟨-, predecessor, -⟩ := SpfaState.step_of_accepted_some outcome
    obtain ⟨inside, above, upper, fresh, -⟩ := forest.accepted_fresh guarded outcome
    simp only [SpfaState.ChainsSatisfy, SpfaStep.KeepsChains, predecessor, outcome,
      forest.rooted.update_descends_iff upper fresh]
    constructor
    · rintro after other ⟨⟩ chain found node - below hangs
      have same := upper.unique forest.rooted.free (forest.hopsBelow_eq_some_iff.mp found)
      subst same
      exact after node _ (.inr ⟨below, forest.hopsBelow_eq_some_iff.mp hangs, rfl⟩)
    · rintro keeps node hops (⟨old, -⟩ | ⟨below, lower, rfl⟩)
      · exact chains node hops old
      · have bounded : node < ctx.maxIdx := by
          obtain ⟨rfl, -⟩ | ⟨_, _, _, _, pointer, _⟩ := lower.eq_nil_or_parent
          · exact inside
          · exact forest.bounded node (by simp [pointer])
        exact keeps hop rfl above (forest.hopsBelow_eq_some_iff.mpr upper) node bounded below
          (forest.hopsBelow_eq_some_iff.mpr lower)

/-- A property of chains holds after every step of a run exactly when every step keeps it, and then
in the result. -/
theorem spfaSteps_chains_iff (trivialChain : good []) (timedOut : Nat → Bool) :
    ((∀ entry ∈ spfaSteps algorithm ctx overrides amountIn timedOut,
      (entry.1.step algorithm ctx overrides entry.2).ChainsSatisfy ctx good) ↔
        ∀ entry ∈ spfaSteps algorithm ctx overrides amountIn timedOut,
          entry.2.KeepsChains algorithm ctx overrides good entry.1) ∧
      ((∀ entry ∈ spfaSteps algorithm ctx overrides amountIn timedOut,
          entry.2.KeepsChains algorithm ctx overrides good entry.1) →
        (runSpfa algorithm ctx overrides amountIn timedOut).1.ChainsSatisfy ctx good) :=
  spfaSteps_keep_iff algorithm ctx overrides timedOut (initialSpfa_chains trivialChain) fun _ _ =>
    SpfaState.step_chains_iff

/-- When every step keeps a property of chains, a returned route reads a path that has it. -/
theorem path_of_kept_chains (trivialChain : good []) {order : Order} {timedOut : Nat → Bool}
    (kept : ∀ entry ∈ spfaSteps algorithm ctx overrides order.amount timedOut,
      entry.2.KeepsChains algorithm ctx overrides good entry.1) {result : RouteResult P}
    (found : findSingleRoute algorithm ctx overrides order timedOut = .ok result) :
    ∃ path, good path ∧ path.length = result.route.swaps.length ∧
      path.map (fun hop => hop.2.2) = result.route.swaps.map Swap.componentId := by
  have forest := (spfaSteps_forest algorithm ctx overrides order.amount timedOut).2
  have chains := (spfaSteps_chains_iff trivialChain timedOut).2 kept
  obtain ⟨tokenOut, path, -, -, reconstructed, reads⟩ := findSingleRoute_eq_ok found
  have descent := forest.reconstructPath_eq_ok_iff.mp reconstructed
  exact ⟨path, chains tokenOut path descent, reads.length_eq, componentIds_of_readsHop reads⟩

end Steps

/-! ## Repeated components -/

section Routes

variable (algorithm : BellmanFordAlgorithm) (ctx : BellmanFordContext P)
  (overrides : MarketOverrides P) (order : Order) (timedOut : Nat → Bool)

/-- **No component twice.** In a run no chain repeats a component exactly when no written hop
joins a chain above and a chain below it that share one or use its own; then no component
appears twice in a returned route. -/
theorem no_component_twice_of_kept :
    ((∀ entry ∈ spfaSteps algorithm ctx overrides order.amount timedOut,
        (entry.1.step algorithm ctx overrides entry.2).ChainsSatisfy ctx NoComponentTwice) ↔
      ∀ entry ∈ spfaSteps algorithm ctx overrides order.amount timedOut,
        entry.2.KeepsChains algorithm ctx overrides NoComponentTwice entry.1) ∧
    ((∀ entry ∈ spfaSteps algorithm ctx overrides order.amount timedOut,
        entry.2.KeepsChains algorithm ctx overrides NoComponentTwice entry.1) →
      ∀ result, findSingleRoute algorithm ctx overrides order timedOut = .ok result →
        (result.route.swaps.map Swap.componentId).Nodup) := by
  have trivialChain : NoComponentTwice [] := List.nodup_nil
  refine ⟨(spfaSteps_chains_iff trivialChain timedOut).1, fun kept result found => ?_⟩
  obtain ⟨path, apart, -, components⟩ := path_of_kept_chains trivialChain kept found
  rw [← components]
  exact apart

/-- A rewrite before any hop leaves the node keeps the components apart. -/
theorem improved_no_component_twice :
    (∀ entry ∈ improvedSteps,
      entry.2.KeepsChains threeHops improvedContext ∅ NoComponentTwice entry.1) ∧
      improvedResult.route.swaps.length = 3 ∧
      (improvedResult.route.swaps.map Swap.componentId).Nodup := by
  have kept : ∀ entry ∈ improvedSteps,
      entry.2.KeepsChains threeHops improvedContext ∅ NoComponentTwice entry.1 := by
    decide +kernel
  exact ⟨kept, by decide +kernel,
    (no_component_twice_of_kept threeHops improvedContext ∅ saleOfHundred fun _ => false).2 kept
      improvedResult (eq_ok_okValue _)⟩

/-- A pool "p" that trades token 0 for token 2 and token 1 for token 3, next to pools from
token 0 to token 1 and from token 2 to token 1. -/
def sharedPools : List ListedPool :=
  [listed "01" (.between 0 1 100 1000), listed "21" (.between 2 1 100 1000),
    listed "p" ⟨[⟨0, 2, 300, 1000⟩, ⟨1, 3, 100, 1000⟩]⟩]

/-- The context built for the sale on them. -/
def sharedContext : BellmanFordContext LinearPool :=
  okValue (threeHops.buildContext (linearRequest sharedPools saleOfHundred)) (by decide +kernel)

/-- Token 3 is reached through "p" while token 1 hangs below token 0. Token 1 is then rewritten
through token 2, which "p" also serves: the route uses "p" at both ends. -/
theorem shared_component_twice :
    threeHops.buildContext (linearRequest sharedPools saleOfHundred) = .ok sharedContext ∧
      ∃ result, findSingleRoute threeHops sharedContext ∅ saleOfHundred (fun _ => false) =
          .ok result ∧
        result.route.swaps.map Swap.componentId = ["p", "21", "p"] ∧
        ¬ (result.route.swaps.map Swap.componentId).Nodup :=
  ⟨eq_ok_okValue _, exists_ok_of_any (by decide +kernel)⟩

/-! ## Length -/

/-- **At most `maxHops` swaps.** In a run no chain exceeds the hop bound exactly when no written
hop joins a chain above and a chain below it that are together too long; then a returned route
has at most `maxHops` swaps. -/
theorem within_maxHops_of_kept :
    ((∀ entry ∈ spfaSteps algorithm ctx overrides order.amount timedOut,
        (entry.1.step algorithm ctx overrides entry.2).ChainsSatisfy ctx
          (WithinHops algorithm.maxHops)) ↔
      ∀ entry ∈ spfaSteps algorithm ctx overrides order.amount timedOut,
        entry.2.KeepsChains algorithm ctx overrides (WithinHops algorithm.maxHops) entry.1) ∧
    ((∀ entry ∈ spfaSteps algorithm ctx overrides order.amount timedOut,
        entry.2.KeepsChains algorithm ctx overrides (WithinHops algorithm.maxHops) entry.1) →
      ∀ result, findSingleRoute algorithm ctx overrides order timedOut = .ok result →
        result.route.swaps.length ≤ algorithm.maxHops) := by
  have trivialChain : WithinHops algorithm.maxHops [] := Nat.zero_le _
  refine ⟨(spfaSteps_chains_iff trivialChain timedOut).1, fun kept result found => ?_⟩
  obtain ⟨path, short, length, -⟩ := path_of_kept_chains trivialChain kept found
  rw [← length]
  exact short

/-- A rewrite before any hop leaves the node keeps the chains short. -/
theorem improved_within_maxHops :
    (∀ entry ∈ improvedSteps,
      entry.2.KeepsChains threeHops improvedContext ∅ (WithinHops threeHops.maxHops) entry.1) ∧
      improvedResult.route.swaps.length ≤ threeHops.maxHops := by
  have kept : ∀ entry ∈ improvedSteps,
      entry.2.KeepsChains threeHops improvedContext ∅ (WithinHops threeHops.maxHops) entry.1 := by
    decide +kernel
  exact ⟨kept,
    (within_maxHops_of_kept threeHops improvedContext ∅ saleOfHundred fun _ => false).2 kept
      improvedResult (eq_ok_okValue _)⟩

/-- Tokens 1, 2 and 4 are one hop from both ends, and the better rates lead through all three. -/
def ladderPools : List ListedPool :=
  [listed "01" (.between 0 1 100 1000), listed "02" (.between 0 2 50 1000),
    listed "04" (.between 0 4 10 1000), listed "12" (.between 1 2 100 1000),
    listed "24" (.between 2 4 100 1000), listed "13" (.between 1 3 10 1000),
    listed "23" (.between 2 3 10 1000), listed "43" (.between 4 3 100 1000)]

/-- The context built for the sale on them. -/
def ladderContext : BellmanFordContext LinearPool :=
  okValue (threeHops.buildContext (linearRequest ladderPools saleOfHundred)) (by decide +kernel)

/-- In the second round token 2 is rewritten through token 1, token 4 through token 2 and token 3
through token 4, one after the other: the route has four swaps where three are allowed. -/
theorem ladder_exceeds_maxHops :
    threeHops.buildContext (linearRequest ladderPools saleOfHundred) = .ok ladderContext ∧
      ∃ result, findSingleRoute threeHops ladderContext ∅ saleOfHundred (fun _ => false) =
          .ok result ∧
        result.route.swaps.map Swap.componentId = ["01", "12", "24", "43"] ∧
        ¬ result.route.swaps.length ≤ threeHops.maxHops :=
  ⟨eq_ok_okValue _, exists_ok_of_any (by decide +kernel)⟩

end Routes

end Fynd
