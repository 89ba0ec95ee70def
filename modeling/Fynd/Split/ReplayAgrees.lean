import Fynd.BellmanFord.LinearMarket
import Fynd.Split.PlanEnds
import Fynd.Split.Replay

/-!
# Replaying a route that was built from a split

A plan sizes its swaps by dividing what stands at a token, and a replay sizes them by the
fractions on the route. The two run in step as long as every swap without a positive
fraction takes all that stands at its token. A share that rounds to nothing breaks this: its
fraction is the mark of the last swap, and the replay gives it the remainder.
-/

namespace Fynd

open Foundation List

variable {P : Type}

/-! ## The steps of a plan -/

/-- A swap with a positive share, or one that takes all that stands at its token. -/
def TakesWhatIsLeft (state : PlanState P) (swap : SplitSwap) : Prop :=
  swap.split.gt 0 = true ∨ swap.amountIn = balanceAt state.balances swap.hop.tokenIn.address

instance (state : PlanState P) (swap : SplitSwap) : Decidable (TakesWhatIsLeft state swap) :=
  inferInstanceAs (Decidable (_ ∨ _))

section Steps

variable [ProtocolSim P] (symbol : Token → String) (paths : List PathAllocation)
  (market : MarketState P)

/-- The swaps of a branch, each with the plan before it runs. -/
def swapSteps : List SizedSwap → PlanState P →
    List (PlanState P × SplitSwap)
  | [], _ => []
  | swap :: rest, state =>
    (state, swap.1) ::
      match runSwap symbol market ∅ .keep state swap with
      | .ok next => swapSteps rest next
      | .error _ => []

/-- The swaps of a release, each with the plan before it runs. -/
def Release.steps (release : Release P) : List (PlanState P × SplitSwap) :=
  match release.sized paths with
  | .ok sized => swapSteps symbol market sized (release.opened sized)
  | .error _ => []

/-- Every swap of the plan of an order either has a positive share or takes all that stands at its
token. -/
def EveryShareTaken (order : Order) : Prop :=
  ∀ release ∈ splitReleases symbol paths market ∅ .keep order.tokenIn order.amount,
    ∀ step ∈ release.steps symbol paths market, TakesWhatIsLeft step.1 step.2

instance (order : Order) : Decidable (EveryShareTaken symbol paths market order) :=
  inferInstanceAs (Decidable (∀ release ∈ _, ∀ step ∈ _, _))

end Steps

/-! ## A replay in step with a plan -/

/-- What a replay records of a swap. -/
def SimulatedSplitSwap.recorded (swap : SimulatedSplitSwap P) : SimulatedSwap :=
  ⟨swap.amountIn, swap.amountOut, swap.gas⟩

/-- A replay that is where the plan is. -/
structure Agrees (state : PlanState P) (simulation : Simulation P) : Prop where
  balances : ∀ token, balanceAt simulation.available token = balanceAt state.balances token
  pools : ∀ id, simulation.postSwap.lookup id = state.postSwap.lookup id
  simulated : simulation.simulated = state.swaps.map SimulatedSplitSwap.recorded
  gas : simulation.totalGas = (state.swaps.map SimulatedSplitSwap.gas).sum
  /-- A token that was not released has not been taken. -/
  untaken : ∀ token branch, state.hopsByToken.lookup token = some branch →
    simulation.branchTotals.lookup token = none

/-- What a replay divides at a token. -/
def Simulation.branchTotal (simulation : Simulation P) (token : Address) : Nat :=
  (simulation.branchTotals.lookup token).getD (balanceAt simulation.available token)

section Replay

variable [ProtocolSim P] {symbol : Token → String} {paths : List PathAllocation}
  {market : MarketState P} {getToken : Address → Option Token} {getState : Swap P → Option P}
  {state next final : PlanState P} {simulation : Simulation P}

private theorem simulateSwap_eq_ok {swap : Swap P} {after : Simulation P}
    (run : simulateSwap getToken getState simulation swap = .ok after) :
    ∃ amountOut gas, after.simulated = simulation.simulated ++
      [⟨amountTaken (simulation.branchTotal swap.tokenIn)
        (balanceAt simulation.available swap.tokenIn) swap.split, amountOut, gas⟩] := by
  obtain ⟨tokenIn, _, run⟩ := bind_eq_ok_iff.mp run
  obtain ⟨tokenOut, _, run⟩ := bind_eq_ok_iff.mp run
  obtain ⟨sim, _, run⟩ := bind_eq_ok_iff.mp run
  obtain ⟨result, _, done⟩ := bind_eq_ok_iff.mp run
  cases done
  exact ⟨result.amount, result.gas, rfl⟩

private theorem simulated_upto {swaps : List (Swap P)} {last : Simulation P}
    (run : simulateAll getToken getState swaps simulation = .ok last) :
    simulation.simulated <+: last.simulated := by
  refine foldlM_invariant (fun reached _ => simulation.simulated <+: reached.simulated) ?_
    prefix_rfl run
  intro reached swap rest after before first
  obtain ⟨amountOut, gas, added⟩ := simulateSwap_eq_ok first
  rw [added]
  exact before.trans (prefix_append _ _)

/-- A swap of a branch that was divided, whose tokens a replay knows. -/
structure SizedFrom (getToken : Address → Option Token) (token : Address) (total : Nat)
    (swap : SplitSwap) : Prop where
  takes : swap.hop.tokenIn.address = token
  part : swap.split.gt 0 = true → swap.amountIn = (splitAmount total swap.split).1
  tokenIn : getToken swap.hop.tokenIn.address = some swap.hop.tokenIn
  tokenOut : getToken swap.hop.tokenOut.address = some swap.hop.tokenOut

variable {token : Address} {total : Nat}

section Step

variable {sized : SizedSwap} {swap : Swap P} (agrees : Agrees state simulation)
  (run : Fynd.runSwap symbol market ∅ .keep state sized = .ok next)
  (emits : ∀ executed, next.swaps = state.swaps ++ [executed] → Emits executed swap)

include agrees run emits

/-- **One swap in step.** A replay that is where the plan is takes what the plan takes, and is where
the plan is after it. -/
theorem Agrees.runSwap (released : state.hopsByToken.lookup token = none)
    (divides : simulation.branchTotal token = total)
    (size : SizedFrom getToken token total sized.1) (takes : TakesWhatIsLeft state sized.1)
    (pool : getState swap = market.getSimulationState swap.componentId) :
    ∃ after, simulateSwap getToken getState simulation swap = .ok after ∧ Agrees next after ∧
      after.branchTotal token = total := by
  obtain ⟨rfl, part, tokenIn, tokenOut⟩ := size
  obtain ⟨sim, result, found, answer, post, ran⟩ := runSwap_recorded run
  obtain ⟨componentId, takenToken, paidToken, split, _, _⟩ := emits _ ran.swaps
  dsimp only at componentId takenToken paidToken split
  have amount : amountTaken total (balanceAt simulation.available sized.1.hop.tokenIn.address)
      swap.split = sized.1.amountIn := by
    rw [amountTaken, agrees.balances, split]
    split
    · rename_i positive
      rw [← part positive]
      exact Nat.min_eq_left ran.covered
    · rename_i unmarked
      exact (takes.resolve_left unmarked).symm
  have pools : (simulation.postSwap.lookup swap.componentId).or (getState swap) = some sim := by
    rw [agrees.pools, pool, componentId]
    exact found
  have stepped : simulateSwap getToken getState simulation swap = .ok {
      available := credit (simulation.available.insert sized.1.hop.tokenIn.address
        (balanceAt simulation.available sized.1.hop.tokenIn.address - sized.1.amountIn))
          sized.1.hop.tokenOut.address result.amount
      branchTotals := simulation.branchTotals.insert sized.1.hop.tokenIn.address total
      postSwap := simulation.postSwap.insert sized.1.hop.componentId result.newState
      totalGas := simulation.totalGas + result.gas
      simulated := simulation.simulated ++ [⟨sized.1.amountIn, result.amount, result.gas⟩] } := by
    rw [Simulation.branchTotal] at divides
    unfold simulateSwap
    rw [takenToken, paidToken, tokenIn, tokenOut, pools]
    dsimp only [Option.elim_some, bind, Except.bind]
    rw [divides, amount, answer, componentId]
    rfl
  refine ⟨_, stepped, ?_, ?_⟩
  · exact {
      balances := by
        intro token
        rw [ran.balances, balanceAt_credit, balanceAt_insert, agrees.balances, agrees.balances]
        dsimp only
        by_cases here : token = sized.1.hop.tokenIn.address
        · subst here
          simp [eq_comm]
        · simp [here, Ne.symm here, eq_comm]
      pools := by
        intro id
        rw [post, lookup_insert_ite, lookup_insert_ite, agrees.pools]
      simulated := by
        rw [ran.swaps, map_append, agrees.simulated]
        rfl
      gas := by
        rw [ran.swaps, map_append, sum_append, agrees.gas]
        simp
      untaken := by
        intro token branch held
        rw [ran.hopsByToken] at held
        dsimp only
        rw [lookup_insert_ite]
        split
        · rename_i same
          rw [same, released] at held
          cases held
        · exact agrees.untaken token branch held }
  · rw [Simulation.branchTotal, lookup_insert_ite, if_pos rfl]
    rfl

/-- A replay that recorded what the plan took has taken what is left where it had to. -/
theorem takesWhatIsLeft_of_recorded {after last : Simulation P}
    (stepped : simulateSwap getToken getState simulation swap = .ok after)
    (recorded : after.simulated <+: last.simulated) (ran : next.swaps <+: final.swaps)
    (amounts : last.simulated.map SimulatedSwap.amountIn =
      final.swaps.map SimulatedSplitSwap.amountIn) : TakesWhatIsLeft state sized.1 := by
  obtain ⟨sim, result, _, _, _, swaps⟩ := runSwap_recorded run
  obtain ⟨_, takenToken, _, split, _, _⟩ := emits _ swaps.swaps
  obtain ⟨amountOut, gas, added⟩ := simulateSwap_eq_ok stepped
  dsimp only at takenToken split
  have here : amountTaken (simulation.branchTotal swap.tokenIn)
      (balanceAt simulation.available swap.tokenIn) swap.split = sized.1.amountIn := by
    obtain ⟨later, lists⟩ := recorded
    obtain ⟨others, runs⟩ := ran
    rw [← lists, ← runs, added, swaps.swaps, agrees.simulated] at amounts
    simp only [map_append, map_map, append_assoc, map_cons, singleton_append] at amounts
    exact (List.cons.inj (append_cancel_left amounts)).1
  rw [amountTaken, split, takenToken, agrees.balances] at here
  split at here
  · rename_i positive
    exact .inl positive
  · exact .inr here.symm

end Step

/-! ## Branches in step -/

/-- The first swap of a branch is emitted first. -/
theorem emits_of_runSwaps {sized : SizedSwap} {rest : List SizedSwap}
    {middle : PlanState P} {group : List (SimulatedSplitSwap P)} {swaps : List (Swap P)}
    (first : Fynd.runSwap symbol market ∅ .keep state sized = .ok middle)
    (later : rest.foldlM (Fynd.runSwap symbol market ∅ .keep) middle = .ok next)
    (ran : next.swaps = state.swaps ++ group) (emits : List.Forall₂ Emits group swaps) :
    ∃ swap others groupRest, swaps = swap :: others ∧ next.swaps = middle.swaps ++ groupRest ∧
      List.Forall₂ Emits groupRest others ∧
      ∀ executed, middle.swaps = state.swaps ++ [executed] → Emits executed swap := by
  obtain ⟨_, _, _, _, _, here⟩ := runSwap_recorded first
  obtain ⟨_, groupRest, following, _⟩ := ranAs_of_runSwaps later
  rw [following, here.swaps, append_assoc, singleton_append] at ran
  obtain rfl := (append_cancel_left ran).symm
  obtain ⟨swap, others, emitted, rest, rfl⟩ := forall₂_cons_left_iff.mp emits
  refine ⟨swap, others, groupRest, rfl, following, rest, ?_⟩
  intro executed place
  rw [here.swaps] at place
  rw [← singleton_inj.mp (append_cancel_left place)]
  exact emitted

variable {branch : List SizedSwap} {group : List (SimulatedSplitSwap P)} {swaps : List (Swap P)}

/-- **A branch in step.** The replay is where the plan is after it, if every swap takes what is left
where it has to. A replay that records what the plan took makes every swap do so. -/
theorem Agrees.runSwaps (pools : ∀ swap, getState swap = market.getSimulationState swap.componentId)
    (agrees : Agrees state simulation) (released : state.hopsByToken.lookup token = none)
    (divides : simulation.branchTotal token = total)
    (sizes : ∀ swap ∈ branch, SizedFrom getToken token total swap.1)
    (run : branch.foldlM (Fynd.runSwap symbol market ∅ .keep) state = .ok next)
    (ran : next.swaps = state.swaps ++ group) (emits : List.Forall₂ Emits group swaps)
    (onward : next.swaps <+: final.swaps) (others : List (Swap P))
    (takes : (∀ step ∈ swapSteps symbol market branch state, TakesWhatIsLeft step.1 step.2) ∨
      ∃ last, simulateAll getToken getState (swaps ++ others) simulation = .ok last ∧
        last.simulated.map SimulatedSwap.amountIn =
          final.swaps.map SimulatedSplitSwap.amountIn) :
    (∀ step ∈ swapSteps symbol market branch state, TakesWhatIsLeft step.1 step.2) ∧
      ∃ after, simulateAll getToken getState swaps simulation = .ok after ∧ Agrees next after := by
  induction branch generalizing state simulation group swaps with
  | nil =>
    cases run
    obtain rfl := self_eq_append_right.mp ran
    cases emits
    exact ⟨by simp [swapSteps], simulation, rfl, agrees⟩
  | cons sized rest ih =>
    rw [foldlM_cons] at run
    obtain ⟨middle, first, later⟩ := bind_eq_ok_iff.mp run
    obtain ⟨swap, swaps, groupRest, rfl, following, emitted, here⟩ :=
      emits_of_runSwaps first later ran emits
    obtain ⟨_, _, _, _, _, stepped⟩ := runSwap_recorded first
    simp only [swapSteps, first, forall_mem_cons, cons_append, simulateAll, foldlM_cons,
      bind_eq_ok_iff] at takes ⊢
    have taken : TakesWhatIsLeft state sized.1 := by
      rcases takes with takes | ⟨last, ⟨after, simulated, replayed⟩, amounts⟩
      · exact takes.1
      · exact takesWhatIsLeft_of_recorded agrees first here simulated (simulated_upto replayed)
          ((following ▸ prefix_append _ _ : middle.swaps <+: next.swaps).trans onward)
          amounts
    obtain ⟨after, simulated, agreed, total⟩ := agrees.runSwap first here released divides
      (sizes sized mem_cons_self) taken (pools swap)
    obtain ⟨takenRest, last, simulatedRest, agreedRest⟩ :=
      ih agreed (stepped.hopsByToken ▸ released) total
        (fun swap member => sizes swap (mem_cons_of_mem _ member)) later following emitted
        (takes.imp And.right fun ⟨last, ⟨reached, same, replayed⟩, amounts⟩ => by
          cases simulated.symm.trans same
          exact ⟨last, replayed, amounts⟩)
    exact ⟨⟨taken, takenRest⟩, last, ⟨after, simulated, simulatedRest⟩, agreedRest⟩

/-! ## Runs in step -/

/-- A replay knows the tokens of every merged swap that waits. -/
def TokensKnown (getToken : Address → Option Token) (hopsByToken : Map Address (List SplitSwap)) :
    Prop :=
  ∀ token branch, hopsByToken.lookup token = some branch → ∀ swap ∈ branch,
    getToken swap.hop.tokenIn.address = some swap.hop.tokenIn ∧
      getToken swap.hop.tokenOut.address = some swap.hop.tokenOut

omit [ProtocolSim P] in
/-- The swaps that a release divides are sized from its balance. -/
theorem Release.sizedFrom {release : Release P} (divided : release.sized paths = .ok branch)
    (nonempty : release.branch ≠ [])
    (takes : ∀ swap ∈ release.branch, swap.hop.tokenIn.address = release.token)
    (known : ∀ swap ∈ release.branch,
      getToken swap.hop.tokenIn.address = some swap.hop.tokenIn ∧
        getToken swap.hop.tokenOut.address = some swap.hop.tokenOut) :
    ∀ swap ∈ branch, SizedFrom getToken release.token release.balance swap.1 := by
  have divides := Release.sized_eq_ok divided nonempty
  intro swap member
  obtain ⟨merged, inBranch, same⟩ :=
    mem_map.mp (divides.hops.subset (mem_map.mpr ⟨swap, member, rfl⟩))
  refine ⟨same ▸ takes merged inBranch, ?_, same ▸ (known merged inBranch).1,
    same ▸ (known merged inBranch).2⟩
  intro positive
  obtain ⟨front, last, rfl⟩ := (eq_nil_or_concat branch).resolve_left (by
    rintro rfl
    cases member)
  have splits := divides.splits
  have parts := divides.parts
  rw [concat_eq_append, dropLast_concat] at parts
  rw [concat_eq_append, map_append, map_singleton] at splits
  rcases mem_append.mp (concat_eq_append ▸ member) with early | ends
  · exact map_inj_left.mp parts swap early
  · -- The last swap is marked by a zero.
    have zero := singleton_inj.mp (append_inj' splits rfl).2
    rw [mem_singleton.mp ends, zero] at positive
    exact absurd positive (by decide)

variable (symbol paths market getToken getState state final) in
/-- What a replay of the rest of a run does, from a state that it agrees with. -/
structure InStep (releases : List (Release P)) : Prop where
  onward : state.swaps <+: final.swaps
  agrees : ∀ simulation group swaps, final.swaps = state.swaps ++ group →
    List.Forall₂ Emits group swaps → Agrees state simulation →
    (∀ release ∈ releases, ∀ step ∈ release.steps symbol paths market,
      TakesWhatIsLeft step.1 step.2) →
    ∃ after, simulateAll getToken getState swaps simulation = .ok after ∧ Agrees final after
  takes : ∀ simulation group swaps last, final.swaps = state.swaps ++ group →
    List.Forall₂ Emits group swaps → Agrees state simulation →
    simulateAll getToken getState swaps simulation = .ok last →
    last.simulated.map SimulatedSwap.amountIn = final.swaps.map SimulatedSplitSwap.amountIn →
    ∀ release ∈ releases, ∀ step ∈ release.steps symbol paths market,
      TakesWhatIsLeft step.1 step.2

private theorem InStep.done : InStep symbol paths market getToken getState final final [] where
  onward := prefix_rfl
  agrees := by
    intro simulation group swaps ran emits agrees _
    obtain rfl := self_eq_append_right.mp ran
    cases emits
    exact ⟨simulation, rfl, agrees⟩
  takes := by simp

section

variable (pools : ∀ swap, getState swap = market.getSimulationState swap.componentId)
  (filed : Filed state.hopsByToken) (known : TokensKnown getToken state.hopsByToken)
include pools filed known

/-- **A release in step.** -/
theorem InStep.release {ready : List Address} {merged : List SplitSwap}
    {releases : List (Release P)} (found : state.hopsByToken.lookup token = some merged)
    {release : Release P} (opens : release = ⟨{ state with
      ready := ready, hopsByToken := state.hopsByToken.erase token }, token, merged⟩)
    (divided : release.sized paths = .ok branch)
    (run : branch.foldlM (Fynd.runSwap symbol market ∅ .keep) (release.opened branch) = .ok next)
    (rest : InStep symbol paths market getToken getState next final releases) :
    InStep symbol paths market getToken getState state final (release :: releases) := by
  subst opens
  obtain ⟨nonempty, takes⟩ := filed token merged found
  have sizes := Release.sizedFrom divided nonempty takes (known token merged found)
  obtain ⟨_, own, ran, _⟩ := ranAs_of_runSwaps run
  have opened {simulation : Simulation P} (agrees : Agrees state simulation) :
      Agrees (Release.opened ⟨{ state with
        ready := ready, hopsByToken := state.hopsByToken.erase token }, token, merged⟩ branch)
        simulation ∧ simulation.branchTotal token = balanceAt state.balances token := by
    refine ⟨{ agrees with untaken := ?_ }, ?_⟩
    · intro other held waits
      exact agrees.untaken other held (lookup_erase_eq_some waits).2
    · rw [Simulation.branchTotal, agrees.untaken token merged found]
      exact agrees.balances token
  have erased := AList.lookup_erase token state.hopsByToken
  have steps : ∀ (release : Release P), release.sized paths = .ok branch →
      release.steps symbol paths market =
        swapSteps symbol market branch (release.opened branch) := by
    intro release sized
    rw [Release.steps, sized]
  have splits {group : List (SimulatedSplitSwap P)} {swaps : List (Swap P)}
      (all : final.swaps = state.swaps ++ group) (emits : List.Forall₂ Emits group swaps) :
      ∃ later first others, final.swaps = next.swaps ++ later ∧ swaps = first ++ others ∧
        List.Forall₂ Emits own first ∧ List.Forall₂ Emits later others := by
    obtain ⟨later, following⟩ := rest.onward
    rw [← following, ran, append_assoc] at all
    obtain rfl := (append_cancel_left all).symm
    obtain ⟨first, others, rfl, here, there⟩ := exists_append_of_forall₂ emits
    exact ⟨later, first, others, following.symm, rfl, here, there⟩
  exact {
    onward := (ran ▸ prefix_append _ _ : state.swaps <+: next.swaps).trans rest.onward
    agrees := by
      intro simulation group swaps all emits agrees taken
      obtain ⟨later, first, others, following, rfl, here, there⟩ := splits all emits
      rw [forall_mem_cons, steps _ divided] at taken
      obtain ⟨agreed, total⟩ := opened agrees
      obtain ⟨_, middle, simulated, reached⟩ := agreed.runSwaps pools erased total sizes run ran
        here rest.onward others (.inl taken.1)
      obtain ⟨after, simulatedRest, ends⟩ :=
        rest.agrees middle later others following there reached taken.2
      refine ⟨after, ?_, ends⟩
      rw [simulateAll, foldlM_append]
      exact bind_eq_ok_iff.mpr ⟨middle, simulated, simulatedRest⟩
    takes := by
      intro simulation group swaps last all emits agrees replayed amounts
      obtain ⟨later, first, others, following, rfl, here, there⟩ := splits all emits
      obtain ⟨agreed, total⟩ := opened agrees
      obtain ⟨own, middle, simulated, reached⟩ := agreed.runSwaps pools erased total sizes run ran
        here rest.onward others (.inr ⟨last, replayed, amounts⟩)
      rw [simulateAll, foldlM_append] at replayed
      obtain ⟨reachedToo, same, replayedRest⟩ := bind_eq_ok_iff.mp replayed
      rw [← simulateAll, simulated] at same
      cases same
      rw [forall_mem_cons, steps _ divided]
      exact ⟨own, rest.takes middle later others last following there reached replayedRest
        amounts⟩ }

/-- **A run in step.** -/
theorem inStep_of_runReady {fuel : Nat}
    (run : Fynd.runReady symbol paths market ∅ .keep fuel state = .ok final) :
    InStep symbol paths market getToken getState state final
      (planReleases symbol paths market ∅ .keep fuel state) := by
  refine planReleases_induction (motive := fun state releases => Filed state.hopsByToken →
    TokensKnown getToken state.hopsByToken →
      InStep symbol paths market getToken getState state final releases) run ?_ ?_ ?_ filed known
  · intro _ _
    exact .done
  · intro state token ready releases _ later filed known
    obtain ⟨onward, agrees, takes⟩ := later filed known
    exact ⟨onward,
      fun simulation group swaps all emits agreed =>
        agrees simulation group swaps all emits { agreed with },
      fun simulation group swaps last all emits agreed =>
        takes simulation group swaps last all emits { agreed with }⟩
  · intro state token ready branch sized next releases _ found release divided swapped later filed
      known
    have kept : next.hopsByToken = state.hopsByToken.erase token := (ranAs_of_runSwaps swapped).1
    refine InStep.release pools filed known found rfl divided swapped (later ?_ ?_)
    · rw [kept]
      exact filed.erase token
    · intro other held waits
      rw [kept] at waits
      exact known other held (lookup_erase_eq_some waits).2

end

/-! ## The replay of a built route -/

/-- A market with the pool states a route was built on and with the tokens of its paths. -/
structure SameMarket (paths : List PathAllocation) (market replayed : MarketState P) : Prop where
  pools : ∀ id, replayed.getSimulationState id = market.getSimulationState id
  tokens : ∀ path ∈ paths, ∀ hop ∈ path.hops,
    replayed.getToken hop.descriptor.tokenIn.address = some hop.descriptor.tokenIn ∧
      replayed.getToken hop.descriptor.tokenOut.address = some hop.descriptor.tokenOut

/-- The swaps of a route as a replay simulates them. -/
def replaySwaps (route : Route P) (market : MarketState P) : Except ReplayError SimulatedRoute :=
  match route.inputToken, route.outputToken with
  | some inputToken, some outputToken =>
    simulateSwaps market.getToken (fun swap => market.getSimulationState swap.componentId)
      route.swaps ⟨inputToken, outputToken,
        ((route.swaps.filter fun swap => swap.tokenIn = inputToken).map Swap.amountIn).sum⟩
  | _, _ => .error .emptyRoute

private theorem replayRoute_eq (route : Route P) (market : MarketState P) :
    replayRoute route market =
      (replaySwaps route market).map fun simulated => ⟨simulated.amountOut, simulated.gas⟩ := by
  unfold replayRoute replaySwaps
  cases route.inputToken with
  | none => rfl
  | some inputToken =>
    cases route.outputToken with
    | none => rfl
    | some outputToken =>
      dsimp only
      cases simulateSwaps market.getToken _ route.swaps _ <;> rfl

/-- A replay of a route gives its amounts swap by swap and its output, and the output is what the
split is scored by. -/
structure Reproduces (display : Address → String) (symbol : Token → String)
    (paths : List PathAllocation) (market : MarketState P) (order : Order) (route : Route P)
    (replayed : MarketState P) (simulated : SimulatedRoute) : Prop where
  swaps : replaySwaps route replayed = .ok simulated
  replay : replayRoute route replayed = .ok ⟨simulated.amountOut, simulated.gas⟩
  amounts : (simulated.swaps.map fun swap => (swap.amountIn, swap.amountOut)) =
    route.swaps.map fun swap => (swap.amountIn, swap.amountOut)
  output : simulated.amountOut = route.amountOut order.tokenOut
  scored : ∀ fractions allocations,
    allocationsFromDescriptors (paths.map fun path => path.hops.map SimulatedHop.descriptor)
      fractions order.amount = .ok allocations →
    allocations.map PathAllocation.amountIn = paths.map PathAllocation.amountIn →
    ∃ gas, evaluateTotalOutput display symbol
      (paths.map fun path => path.hops.map SimulatedHop.descriptor) fractions order.amount market
        ∅ = .ok (simulated.amountOut, gas)

variable {display : Address → String} {order : Order} {route : Route P} {replayed : MarketState P}

omit [ProtocolSim P] in
private theorem agrees_start : Agrees (planStart paths order.tokenIn order.amount : PlanState P)
    (.start ⟨order.tokenIn, order.tokenOut, order.amount⟩) where
  balances := fun _ => rfl
  pools := fun _ => rfl
  simulated := rfl
  gas := rfl
  untaken := fun _ _ _ => rfl

omit [ProtocolSim P] in
private theorem SameMarket.tokensKnown (same : SameMarket paths market replayed) :
    TokensKnown replayed.getToken (mergeSharedHops paths) := by
  intro token branch found swap member
  have waits : swap ∈ waiting (mergeSharedHops paths) :=
    mem_flatMap.mpr ⟨_, lookup_eq_some_iff.mp found, member⟩
  obtain ⟨path, inPaths, hop, inPath, equal⟩ := exists_hop_of_merged waits
  rw [← equal]
  exact same.tokens path inPaths hop inPath

/-- **A replay reproduces a built route exactly if every share is taken.** -/
theorem reproduces_iff_everyShareTaken
    (leads : ∀ path ∈ paths,
      HopsLead order.tokenIn order.tokenOut (path.hops.map SimulatedHop.descriptor))
    (same : SameMarket paths market replayed)
    (built : buildSplitRoute display symbol paths market order = .ok route) :
    (∃ simulated, Reproduces display symbol paths market order route replayed simulated) ↔
      EveryShareTaken symbol paths market order := by
  obtain ⟨execution, executed, emits, nonempty⟩ := buildSplitRoute_eq_ok built
  have ends := planEnds_of_executeSplitPlan leads executed (ne_nil_of_forall₂ emits nonempty)
  obtain ⟨input, output, totalIn, paid⟩ := ends_of_emits ends emits nonempty
  obtain ⟨_, _, final, run, _, _, shape⟩ := executeSplitPlan_eq_ok executed
  have inStep := inStep_of_runReady (fun swap => same.pools swap.componentId)
    (filed_mergeSharedHops paths) same.tokensKnown run
  have swaps : final.swaps = execution.swaps := by rw [shape]
  have replays : replaySwaps route replayed = simulateSwaps replayed.getToken
      (fun swap => replayed.getSimulationState swap.componentId) route.swaps
        ⟨order.tokenIn, order.tokenOut, order.amount⟩ := by
    rw [replaySwaps, input, output]
    dsimp only
    rw [totalIn]
  constructor
  · rintro ⟨simulated, reproduces⟩
    have replay := reproduces.swaps
    rw [replays] at replay
    obtain ⟨last, simulatedAll, done⟩ := bind_eq_ok_iff.mp replay
    cases done
    refine inStep.takes _ final.swaps route.swaps last rfl (swaps ▸ emits) agrees_start
      simulatedAll ?_
    have amounts := congrArg (List.map Prod.fst) reproduces.amounts
    rw [map_map, map_map] at amounts
    rw [swaps]
    exact amounts.trans (map_eq_map_of_forall₂ emits fun _ _ emitted => emitted.amountIn.symm).symm
  · intro taken
    obtain ⟨after, simulatedAll, agrees⟩ :=
      inStep.agrees _ final.swaps route.swaps rfl (swaps ▸ emits) agrees_start taken
    have replay : replaySwaps route replayed = .ok ⟨after.simulated,
        balanceAt after.available order.tokenOut, after.totalGas⟩ := by
      rw [replays]
      exact bind_eq_ok_iff.mpr ⟨after, simulatedAll, rfl⟩
    have left : balanceAt after.available order.tokenOut =
        balanceAt execution.available order.tokenOut := by
      rw [agrees.balances, shape]
    refine ⟨_, replay, by rw [replayRoute_eq, replay]; rfl, ?_, left.trans paid.symm, ?_⟩
    · rw [agrees.simulated, swaps, map_map]
      refine map_eq_map_of_forall₂ emits fun _ _ emitted => ?_
      rw [emitted.amountIn, emitted.amountOut]
      rfl
    · intro fractions allocations allocated amounts
      refine ⟨execution.totalGas, ?_⟩
      rw [evaluateTotalOutput_of_executeSplitPlan leads allocated amounts executed, left]

end Replay

/-! ## Samples -/

/-- Four pools that trade the same pair. One of them pays double. -/
def parallelPools : MarketState LinearPool :=
  linearMarket [listed "a" (.between 0 1 100 1000), listed "b" (.between 0 1 100 1000),
    listed "c" (.between 0 1 200 1000), listed "d" (.between 0 1 100 1000)]

/-- Two paths that share an order of three, and one that carries nothing. -/
def oneZeroShare : List PathAllocation :=
  [allocated 2 [("a", 0, 1)], allocated 1 [("b", 0, 1)], allocated 0 [("c", 0, 1)]]

/-- Two paths that share an order of three, and two that carry nothing. -/
def twoZeroShares : List PathAllocation :=
  oneZeroShare ++ [allocated 0 [("d", 0, 1)]]

private theorem sameMarket_parallelPools : SameMarket twoZeroShares parallelPools parallelPools :=
  ⟨fun _ => rfl, by decide +kernel⟩

/-- One path that carries nothing is the last swap, and the replay gives what was recorded. -/
theorem one_zero_share_is_reproduced : ∃ route,
    buildSplitRoute toString (fun _ => "") oneZeroShare parallelPools ⟨0, 1, 3, .sell⟩ =
      .ok route ∧ ∃ simulated, Reproduces toString (fun _ => "") oneZeroShare parallelPools
        ⟨0, 1, 3, .sell⟩ route parallelPools simulated := by
  obtain ⟨route, built, _⟩ : ∃ route,
      buildSplitRoute toString (fun _ => "") oneZeroShare parallelPools ⟨0, 1, 3, .sell⟩ =
        .ok route ∧ route.swaps.map Swap.amountIn = [1, 0, 2] :=
    exists_ok_of_any (by decide +kernel)
  refine ⟨route, built, (reproduces_iff_everyShareTaken (by decide +kernel) ?_ built).mpr
    (by decide +kernel)⟩
  exact ⟨sameMarket_parallelPools.pools, by decide +kernel⟩

/-- Two paths that carry nothing leave a route whose remainder the plan gives to the last swap and
the replay to the one before it. -/
theorem two_zero_shares_are_not_reproduced : SameMarket twoZeroShares parallelPools parallelPools ∧
    ∃ route,
      buildSplitRoute toString (fun _ => "") twoZeroShares parallelPools ⟨0, 1, 3, .sell⟩ =
        .ok route ∧
      route.swaps.map Swap.amountIn = [1, 0, 0, 2] ∧ route.amountOut 1 = 3 ∧
      replayRoute route parallelPools = .ok ⟨5, 4⟩ ∧
      ¬ ∃ simulated, Reproduces toString (fun _ => "") twoZeroShares parallelPools
        ⟨0, 1, 3, .sell⟩ route parallelPools simulated := by
  obtain ⟨route, built, amounts, paid, replayed⟩ : ∃ route,
      buildSplitRoute toString (fun _ => "") twoZeroShares parallelPools ⟨0, 1, 3, .sell⟩ =
        .ok route ∧ route.swaps.map Swap.amountIn = [1, 0, 0, 2] ∧ route.amountOut 1 = 3 ∧
          (replayRoute route parallelPools).toOption = some ⟨5, 4⟩ :=
    exists_ok_of_any (by decide +kernel)
  have replay : replayRoute route parallelPools = .ok ⟨5, 4⟩ := by
    cases shape : replayRoute route parallelPools <;> rw [shape] at replayed <;> cases replayed
    rfl
  refine ⟨sameMarket_parallelPools, route, built, amounts, paid, replay, ?_⟩
  rintro ⟨simulated, reproduces⟩
  have same := reproduces.replay
  rw [replay] at same
  have output := reproduces.output
  rw [paid] at output
  cases simulated
  cases same
  cases output

end Fynd
