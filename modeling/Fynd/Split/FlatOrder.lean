import Fynd.Foundation.DependencyOrder
import Fynd.Split.Replay
import Fynd.Split.Validation

/-!
# Running an accepted route in its flat order

The checks look at a split route collection by collection, and a replay runs it swap by
swap. The order of the collections says where the first swap of each stands. The flat order
is one that can be run exactly when the other swaps of a collection also come before those
that take what they pay.
-/

namespace Fynd

open Foundation List

variable {P : Type}

/-- A swap that is not the first to take its token pays no token that was taken before it ran. -/
def LaterSwapsFirst (swaps : List (Swap P)) : Prop :=
  ∀ before swap after, swaps = before ++ swap :: after →
    swap.tokenIn ∈ before.map Swap.tokenIn →
      swap.tokenOut ∉ (before ++ [swap]).map Swap.tokenIn

instance (swaps : List (Swap P)) : Decidable (LaterSwapsFirst swaps) :=
  decidable_of_iff _ forall_place_iff.symm

/-! ## The order of an accepted route -/

section Accepted

variable {display : Address → String} {displaySplit : Binary64 → String} {route : Route P}

/-- A swap of an accepted route that pays a token that was taken before goes back to the start, or
is not the first to take its token. -/
theorem LaterSwapsFirst.returns (later : LaterSwapsFirst route.swaps)
    (accepted : route.validate display displaySplit = .ok ()) {before after : List (Swap P)}
    {swap : Swap P} (place : route.swaps = before ++ swap :: after)
    (taken : swap.tokenOut ∈ (before ++ [swap]).map Swap.tokenIn) :
    route.inputToken = route.outputToken ∧ some swap.tokenOut = route.inputToken := by
  by_cases leads : swap.tokenIn ∈ before.map Swap.tokenIn
  · exact absurd taken (later before swap after place leads)
  · exact Route.return_of_validate accepted place leads taken

/-- Where the checks leave the order open: the later swaps of a collection, and the way back to the
start. -/
theorem producersFirst_iff (accepted : route.validate display displaySplit = .ok ()) :
    ProducersFirst Swap.tokenIn Swap.tokenOut route.swaps ↔
      route.inputToken ≠ route.outputToken ∧ LaterSwapsFirst route.swaps := by
  constructor
  · intro ordered
    refine ⟨fun roundTrip => ?_, fun before swap after place _ => ordered.not_taken place⟩
    obtain ⟨first, last, starts, ends, _⟩ := Route.validate_eq_ok accepted
    obtain ⟨rest, shape⟩ := head?_eq_some_iff.mp starts
    simp only [Route.inputToken, Route.outputToken, starts, ends, Option.map_some,
      Option.some.injEq] at roundTrip
    apply ordered [] first rest shape
    rw [roundTrip, ← shape]
    exact mem_map_of_mem (mem_of_getLast? ends)
  · rintro ⟨oneWay, later⟩ before taker after place
    apply not_paid_of_not_taken _ place rfl
    rintro before swap after place pays taken
    rw [← pays] at taken
    exact oneWay (later.returns accepted place taken).1

end Accepted

/-! ## What a replay leaves -/

section Replay

variable [ProtocolSim P] {getToken : Address → Option Token}
  {getState : Swap P → Option P} {simulation final : Simulation P}

/-- A swap takes from its token and adds what the pool answers. -/
theorem balance_of_simulateSwap {swap : Swap P}
    (ran : simulateSwap getToken getState simulation swap = .ok final) :
    ∃ branchTotal paid, ∀ token, balanceAt final.available token =
      (if token = swap.tokenIn then
          balanceAt simulation.available token - amountTaken branchTotal
            (balanceAt simulation.available token) swap.split
        else balanceAt simulation.available token) +
        if token = swap.tokenOut then paid else 0 := by
  unfold simulateSwap at ran
  obtain ⟨tokenIn, _, ran⟩ := bind_eq_ok_iff.mp ran
  obtain ⟨tokenOut, _, ran⟩ := bind_eq_ok_iff.mp ran
  obtain ⟨sim, _, ran⟩ := bind_eq_ok_iff.mp ran
  obtain ⟨result, _, ran⟩ := bind_eq_ok_iff.mp ran
  cases ran
  refine ⟨(simulation.branchTotals.lookup swap.tokenIn).getD
    (balanceAt simulation.available swap.tokenIn), result.amount, fun token => ?_⟩
  rw [balanceAt_credit, balanceAt_insert]
  by_cases here : token = swap.tokenIn
  · rw [if_pos here, if_pos here, here]
  · rw [if_neg here, if_neg here]

private theorem balance_of_untouched {swaps : List (Swap P)}
    (ran : simulateAll getToken getState swaps simulation = .ok final) {token : Address}
    (untaken : token ∉ swaps.map Swap.tokenIn) (unpaid : token ∉ swaps.map Swap.tokenOut) :
    balanceAt final.available token = balanceAt simulation.available token := by
  induction swaps generalizing simulation with
  | nil =>
    cases ran
    rfl
  | cons swap rest ih =>
    obtain ⟨next, first, later⟩ := bind_eq_ok_iff.mp ran
    simp only [map_cons, mem_cons, not_or] at untaken unpaid
    obtain ⟨branchTotal, paid, balance⟩ := balance_of_simulateSwap first
    rw [ih later untaken.2 unpaid.2, balance, if_neg untaken.1, if_neg unpaid.1, Nat.add_zero]

/-- A token is spent once its last taker ran, if nothing pays it afterwards. -/
theorem balance_of_last_taker {before after : List (Swap P)} {swap : Swap P}
    (ran : simulateAll getToken getState (before ++ swap :: after) simulation = .ok final)
    (takesRest : swap.split.gt 0 = false) (untaken : swap.tokenIn ∉ after.map Swap.tokenIn)
    (unpaid : swap.tokenIn ∉ (swap :: after).map Swap.tokenOut) :
    balanceAt final.available swap.tokenIn = 0 := by
  unfold simulateAll at ran
  rw [foldlM_append] at ran
  obtain ⟨reached, _, ran⟩ := bind_eq_ok_iff.mp ran
  obtain ⟨next, here, later⟩ := bind_eq_ok_iff.mp ran
  simp only [map_cons, mem_cons, not_or] at unpaid
  obtain ⟨branchTotal, paid, balance⟩ := balance_of_simulateSwap here
  rw [balance_of_untouched later untaken unpaid.2, balance, if_pos rfl, if_neg unpaid.1]
  simp [amountTaken, takesRest]

/-- Whatever the order, a replay runs to the end if the tokens and states are known and the pools
answer. -/
theorem exists_simulateAll (swaps : List (Swap P))
    (tokens : ∀ address, (getToken address).isSome = true)
    (states : ∀ swap, (getState swap).isSome = true)
    (answers : ∀ (sim : P) amountIn tokenIn tokenOut,
      ∃ result, getAmountOutGuarded sim amountIn tokenIn tokenOut = .ok result) :
    ∃ final, simulateAll getToken getState swaps simulation = .ok final := by
  induction swaps generalizing simulation with
  | nil => exact ⟨simulation, rfl⟩
  | cons swap rest ih =>
    have here : ∃ next, simulateSwap getToken getState simulation swap = .ok next := by
      obtain ⟨tokenIn, foundIn⟩ := Option.isSome_iff_exists.mp (tokens swap.tokenIn)
      obtain ⟨tokenOut, foundOut⟩ := Option.isSome_iff_exists.mp (tokens swap.tokenOut)
      have known : ((simulation.postSwap.lookup swap.componentId).or (getState swap)).isSome :=
        by simp [states swap]
      obtain ⟨sim, found⟩ := Option.isSome_iff_exists.mp known
      obtain ⟨result, answered⟩ := answers sim _ tokenIn tokenOut
      unfold simulateSwap
      rw [foundIn, foundOut]
      simp only [found, Option.elim_some]
      exact ⟨_, bind_eq_ok_iff.mpr ⟨tokenIn, rfl, bind_eq_ok_iff.mpr ⟨tokenOut, rfl,
        bind_eq_ok_iff.mpr ⟨sim, rfl, bind_eq_ok_iff.mpr ⟨result, by rw [answered]; rfl, rfl⟩⟩⟩⟩⟩
    obtain ⟨next, first⟩ := here
    obtain ⟨final, later⟩ := @ih next
    exact ⟨final, bind_eq_ok_iff.mpr ⟨next, first, later⟩⟩

end Replay

/-- A run of the route leaves nothing at a token between its ends. -/
def LeavesNothing [ProtocolSim P] (route : Route P) : Prop :=
  ∀ getToken getState ends final, some ends.inputToken = route.inputToken →
    some ends.outputToken = route.outputToken →
      simulateAll getToken getState route.swaps (.start ends) = .ok final →
        ∀ token, token ≠ ends.inputToken → token ≠ ends.outputToken →
          balanceAt final.available token = 0

/-- A route can be run in its flat order: producers come first, pools that answer are asked to the
end, and nothing is left between its ends. -/
structure RunsInOrder [ProtocolSim P] (route : Route P) : Prop where
  producersFirst : ProducersFirst Swap.tokenIn Swap.tokenOut route.swaps
  completes : ∀ (getToken : Address → Option Token) (getState : Swap P → Option P)
    ends, (∀ address, (getToken address).isSome = true) →
      (∀ swap, (getState swap).isSome = true) →
        (∀ (sim : P) amountIn tokenIn tokenOut,
          ∃ result, getAmountOutGuarded sim amountIn tokenIn tokenOut = .ok result) →
            ∃ final, simulateAll getToken getState route.swaps (.start ends) = .ok final
  leavesNothing : LeavesNothing route

private theorem exists_last_taker {swaps : List (Swap P)} {token : Address}
    (taken : token ∈ swaps.map Swap.tokenIn) :
    ∃ before swap after, swaps = before ++ swap :: after ∧ swap.tokenIn = token ∧
      token ∉ after.map Swap.tokenIn := by
  induction swaps with
  | nil => cases taken
  | cons first rest ih =>
    by_cases later : token ∈ rest.map Swap.tokenIn
    · obtain ⟨before, swap, after, rfl, same, last⟩ := ih later
      exact ⟨first :: before, swap, after, rfl, same, last⟩
    · have here := (mem_cons.mp taken).resolve_right later
      exact ⟨[], first, rest, rfl, here.symm, later⟩

section Runs

variable [ProtocolSim P] {display : Address → String} {displaySplit : Binary64 → String}
  {route : Route P}

/-- An accepted route whose later swaps come first spends every token between its ends, also if it
returns to its start. -/
theorem leavesNothing_of_laterSwapsFirst (accepted : route.validate display displaySplit = .ok ())
    (later : LaterSwapsFirst route.swaps) : LeavesNothing route := by
  intro getToken getState ends final starts terminates ran token notInput notOutput
  by_cases taken : token ∈ route.swaps.map Swap.tokenIn
  · obtain ⟨before, swap, after, place, rfl, last⟩ := exists_last_taker taken
    have unpaid : swap.tokenIn ∉ (swap :: after).map Swap.tokenOut := by
      apply not_paid_of_not_taken _ place rfl
      intro before payer after place pays taken
      rw [← pays] at taken
      have start := (later.returns accepted place taken).2
      rw [pays, ← starts] at start
      exact notInput (Option.some.inj start)
    rw [place] at ran
    exact balance_of_last_taker ran (Route.last_of_validate accepted place last) last unpaid
  · have unpaid : token ∉ route.swaps.map Swap.tokenOut := by
      intro paid
      obtain ⟨swap, member, rfl⟩ := mem_map.mp paid
      apply taken (Route.consumed_of_validate accepted member ?_)
      rw [← terminates]
      exact fun same => notOutput (Option.some.inj same)
    rw [balance_of_untouched ran taken unpaid, Simulation.start, balanceAt_insert, if_neg notInput]
    rfl

/-- **When an accepted route runs in its flat order.** Exactly when it does not return to its start
and each further swap of a branch collection comes before the swaps that take what it pays. -/
theorem runsInOrder_iff (accepted : route.validate display displaySplit = .ok ()) :
    RunsInOrder route ↔
      route.inputToken ≠ route.outputToken ∧ LaterSwapsFirst route.swaps := by
  constructor
  · intro runs
    exact (producersFirst_iff accepted).mp runs.producersFirst
  · intro ordered
    exact ⟨(producersFirst_iff accepted).mpr ordered,
      fun _ _ _ tokens states answers => exists_simulateAll route.swaps tokens states answers,
      leavesNothing_of_laterSwapsFirst accepted ordered.2⟩

end Runs

/-! ## Samples -/

/-- A pool that pays what it is given. -/
structure EvenPool where
  deriving DecidableEq, Repr

instance : ProtocolSim EvenPool where
  getAmountOut pool amountIn _ _ := .returned ⟨amountIn, 0, pool⟩

/-- A swap of a share of its token. -/
def shareSwap (id : ComponentId) (tokenIn tokenOut : Address) (split : Binary64) :
    Swap EvenPool where
  componentId := id
  protocol := "even"
  tokenIn := tokenIn
  tokenOut := tokenOut
  amountIn := 0
  amountOut := 0
  gasEstimate := 0
  protocolComponent := ⟨id, "even", [tokenIn, tokenOut], ∅⟩
  protocolState := ⟨⟩
  split := split

/-- Two quarters go through the middle token and the rest goes straight. -/
def collectedRoute : Route EvenPool where
  swaps := [shareSwap "p" 0 1 0.25, shareSwap "q" 0 1 0.25, shareSwap "r" 0 2 0,
    shareSwap "s" 1 2 0]
  tokens := ∅

/-- The same swaps, with the middle token taken before its second quarter is paid. -/
def interleavedRoute : Route EvenPool where
  swaps := [shareSwap "p" 0 1 0.25, shareSwap "s" 1 2 0, shareSwap "q" 0 1 0.25,
    shareSwap "r" 0 2 0]
  tokens := ∅

/-- Listed collection by collection, the swaps run in order. -/
theorem collected_route_runs_in_order : RunsInOrder collectedRoute := by
  have accepted : collectedRoute.validate toString (fun _ => "") = .ok () := by decide +kernel
  exact (runsInOrder_iff accepted).mpr (by decide +kernel)

/-- The interleaved route is accepted, and a quarter of the input is left at the middle token. -/
theorem interleaved_route_leaves_token :
    interleavedRoute.validate toString (fun _ => "") = .ok () ∧
      ¬ ProducersFirst Swap.tokenIn Swap.tokenOut interleavedRoute.swaps ∧
        ¬ LeavesNothing interleavedRoute := by
  refine ⟨by decide +kernel, by decide +kernel, fun nothing => ?_⟩
  obtain ⟨final, ran, left⟩ : ∃ final,
      simulateAll (fun address => some ⟨address, 18⟩) (fun swap => some swap.protocolState)
        interleavedRoute.swaps (.start ⟨0, 2, 100⟩) = .ok final ∧
      balanceAt final.available 1 = 25 := exists_ok_of_any (by decide +kernel)
  have spent := nothing _ _ _ final rfl rfl ran 1 (by decide) (by decide)
  omega

end Fynd
