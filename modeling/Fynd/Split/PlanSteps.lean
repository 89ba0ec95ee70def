import Fynd.Foundation.Fallible
import Fynd.Split.MergedSwaps

/-!
# What the steps of a split plan do

A branch is divided so that its swaps take all that stands at their token. A swap that ran
had a pool state, took what its token covered and was paid the pool's answer. The bound on
the released tokens is never reached.
-/

namespace Fynd

open Foundation List

variable {P : Type}

/-! ## Dividing a branch -/

/-- Giving swaps new shares and amounts keeps their hops. -/
theorem map_resized {swaps sized : List SplitSwap} {fractions : List Binary64} {amounts : List Nat}
    (shares : fractions.length = swaps.length) (listed : amounts.length = swaps.length)
    (resized : ((swaps.zip (fractions.zip amounts)).map fun (swap, split, amount) =>
      { swap with split := split, amountIn := amount }) = sized) :
    sized.map SplitSwap.hop = swaps.map SplitSwap.hop ∧ sized.map SplitSwap.split = fractions ∧
      sized.map SplitSwap.amountIn = amounts := by
  have both : (fractions.zip amounts).length = swaps.length := by
    rw [length_zip]
    omega
  have firsts : (swaps.zip (fractions.zip amounts)).map Prod.fst = swaps := map_fst_zip both.ge
  have pairs : (swaps.zip (fractions.zip amounts)).map Prod.snd = fractions.zip amounts :=
    map_snd_zip both.le
  have splits : (fractions.zip amounts).map Prod.fst = fractions := map_fst_zip (by omega)
  have parts : (fractions.zip amounts).map Prod.snd = amounts := map_snd_zip (by omega)
  rw [← pairs, map_map] at splits parts
  subst resized
  simp only [map_map]
  refine ⟨?_, splits, parts⟩
  rw [← congrArg (List.map SplitSwap.hop) firsts, map_map]
  rfl

variable {inDegree : Map Address Nat} {ready : List Address} {token other : Address} {total : Nat}

private theorem splitsFromAmounts_eq_ok {hops sized : List SplitSwap}
    (divided : splitsFromAmounts hops total = .ok sized) :
    (sized.map SplitSwap.hop).Perm (hops.map SplitSwap.hop) ∧
      (sized.map SplitSwap.amountIn).sum = total := by
  unfold splitsFromAmounts at divided
  dsimp only at divided
  split at divided
  · cases divided
  · rename_i amounts given
    obtain ⟨length, sum⟩ := fractionsToAmounts_eq_ok given
    have shares := length
    rw [length_map, length_zipIdx] at length
    obtain ⟨kept, _, taken⟩ := map_resized (shares.symm.trans length) length (Except.ok.inj divided)
    rw [kept, taken]
    exact ⟨(perm_insertionSort _ hops).map _, sum⟩

/-- A branch is divided among its swaps without a rest. -/
theorem amountsForBranch_eq_ok {branch : List SplitSwap} {standing : Map HopKey (List Nat)}
    {ledger : PathLedger} {sized : List SizedSwap}
    (divided : amountsForBranch branch standing ledger total = .ok sized) :
    ((sized.map Prod.fst).map SplitSwap.hop).Perm (branch.map SplitSwap.hop) ∧
      ((sized.map Prod.fst).map SplitSwap.amountIn).sum = total := by
  obtain ⟨asked, asks, rest⟩ := bind_eq_ok_iff.mp divided
  obtain ⟨parts, splits, paired⟩ := bind_eq_ok_iff.mp rest
  cases paired
  have same : (parts.map fun part => (part, (standing.lookup (hopKey part.hop)).getD [])).map
      Prod.fst = parts := by
    rw [map_map]
    exact map_id parts
  rw [same]
  obtain ⟨kept, sum⟩ := splitsFromAmounts_eq_ok splits
  refine ⟨kept.trans (List.Perm.of_eq (Eq.symm ?_)), sum⟩
  refine map_eq_map_of_forall₂ (mapM_eq_ok_iff.mp asks) fun swap ask sizes => ?_
  split at sizes
  · cases sizes
  · cases sizes
    rfl

/-! ## Releasing a token -/

variable (inDegree ready token other) in
theorem balanceAt_release :
    balanceAt (release inDegree ready token).1 other =
      balanceAt inDegree other - if other = token then 1 else 0 := by
  unfold release
  cases found : inDegree.lookup token with
  | none =>
    by_cases same : other = token
    · subst same
      simp [balanceAt, found]
    · simp [same]
  | some degree =>
    dsimp only
    rw [balanceAt_insert]
    by_cases same : other = token
    · subst same
      simp [balanceAt, found]
    · simp [same]

theorem mem_release (released : other ∈ (release inDegree ready token).2) :
    other ∈ ready ∨ balanceAt (release inDegree ready token).1 other = 0 := by
  rw [balanceAt_release]
  unfold release at released
  cases found : inDegree.lookup token with
  | none =>
    rw [found] at released
    exact .inl released
  | some degree =>
    rw [found] at released
    dsimp only at released
    split at released
    · rename_i last
      rcases mem_append.mp released with before | here
      · exact .inl before
      · right
        rw [mem_singleton.mp here, balanceAt, found]
        simpa using last
    · exact .inl released

variable (inDegree ready token) in
private theorem length_release :
    (release inDegree ready token).2.length ≤ ready.length + 1 := by
  unfold release
  cases inDegree.lookup token with
  | none => exact Nat.le_succ _
  | some degree =>
    dsimp only
    split
    · simp
    · exact Nat.le_succ _

/-! ## Running a swap -/

/-- What the plan starts with of a pool. -/
def poolAtStart (market : MarketState P) (baseOverrides : MarketOverrides P)
    (componentId : ComponentId) : Option P :=
  (baseOverrides.lookup componentId).or (market.getSimulationState componentId)

section Run

variable [ProtocolSim P] {symbol : Token → String} {paths : List PathAllocation}
  {market : MarketState P} {baseOverrides : MarketOverrides P}
  {capture : StateCapture} {state next final : PlanState P}

variable (market baseOverrides state) in
/-- A swap that ran, on the pool state it found and with the pool's answer. -/
structure RanSwap
    (swap : SplitSwap) (executed : SimulatedSplitSwap P) (next : PlanState P) : Prop where
  hop : executed.hop = swap.hop
  amountIn : executed.amountIn = swap.amountIn
  covered : swap.amountIn ≤ balanceAt state.balances swap.hop.tokenIn.address
  answered : ∃ sim result,
    (state.postSwap.lookup swap.hop.componentId).or
      (poolAtStart market baseOverrides swap.hop.componentId) = some sim ∧
    getAmountOutGuarded sim swap.amountIn swap.hop.tokenIn swap.hop.tokenOut = .ok result ∧
    executed.amountOut = result.amount ∧
    next.postSwap = state.postSwap.insert swap.hop.componentId result.newState
  swaps : next.swaps = state.swaps ++ [executed]
  balances : ∀ token, balanceAt next.balances token =
    balanceAt state.balances token -
        (if swap.hop.tokenIn.address = token then swap.amountIn else 0) +
      if swap.hop.tokenOut.address = token then executed.amountOut else 0
  hopsByToken : next.hopsByToken = state.hopsByToken
  inDegree : next.inDegree = (release state.inDegree state.ready swap.hop.tokenOut.address).1
  ready : next.ready = (release state.inDegree state.ready swap.hop.tokenOut.address).2

private theorem runMergedSwap_eq_ok {swap : SplitSwap} {postSwap : MarketOverrides P}
    {executed : SimulatedSplitSwap P} {newState : P}
    (run : runMergedSwap market baseOverrides capture swap postSwap = .ok (executed, newState)) :
    ∃ sim result,
      (postSwap.lookup swap.hop.componentId).or
        (poolAtStart market baseOverrides swap.hop.componentId) = some sim ∧
      getAmountOutGuarded sim swap.amountIn swap.hop.tokenIn swap.hop.tokenOut = .ok result ∧
      executed = ⟨swap.hop, swap.split, swap.amountIn, result.amount, result.gas,
        if capture = .keep then some sim else none⟩ ∧
      newState = result.newState := by
  obtain ⟨sim, found, rest⟩ := bind_eq_ok_iff.mp run
  obtain ⟨result, simulated, done⟩ := bind_eq_ok_iff.mp rest
  cases done
  refine ⟨sim, result, ?_, mapError_eq_ok simulated, rfl, rfl⟩
  rw [poolAtStart, ← Option.or_assoc]
  exact elim_eq_ok found

section

variable {sized : SizedSwap}
  (run : runSwap symbol market baseOverrides capture state sized = .ok next)
include run

/-- A swap that ran is recorded as the pool answered it. -/
theorem runSwap_recorded : ∃ sim result,
      (state.postSwap.lookup sized.1.hop.componentId).or
        (poolAtStart market baseOverrides sized.1.hop.componentId) = some sim ∧
      getAmountOutGuarded sim sized.1.amountIn sized.1.hop.tokenIn sized.1.hop.tokenOut =
        .ok result ∧
      next.postSwap = state.postSwap.insert sized.1.hop.componentId result.newState ∧
      RanSwap market baseOverrides state sized.1
        ⟨sized.1.hop, sized.1.split, sized.1.amountIn, result.amount, result.gas,
          if capture = .keep then some sim else none⟩ next := by
  obtain ⟨swap, fed⟩ := sized
  obtain ⟨balances, spent, rest⟩ := bind_eq_ok_iff.mp run
  obtain ⟨⟨executed, newState⟩, ran, done⟩ := bind_eq_ok_iff.mp rest
  obtain ⟨sim, result, held, answer, rfl, rfl⟩ := runMergedSwap_eq_ok ran
  cases done
  unfold spend at spent
  dsimp only at spent
  split at spent
  · cases spent
  · rename_i covered
    cases spent
    refine ⟨sim, result, held, answer, rfl, rfl, rfl, Nat.le_of_not_lt covered,
      ⟨sim, result, held, answer, rfl, rfl⟩, rfl, ?_, rfl, rfl, rfl⟩
    intro token
    dsimp only
    rw [balanceAt_credit, balanceAt_insert]
    by_cases taken : token = swap.hop.tokenIn.address
    · subst taken
      simp [eq_comm]
    · simp [taken, Ne.symm taken, eq_comm]

theorem runSwap_eq_ok : ∃ executed, RanSwap market baseOverrides state sized.1 executed next := by
  obtain ⟨_, _, _, _, _, ran⟩ := runSwap_recorded run
  exact ⟨_, ran⟩

end

/-- **Invariant rule of a plan.** What passing over a token and running the branch of a token both
keep holds at the end of a plan that succeeds. -/
theorem runReady_invariant {fuel : Nat} (holds : PlanState P → Prop)
    (pass : ∀ state token ready, holds state → state.ready = token :: ready →
      state.hopsByToken.lookup token = none → holds { state with ready := ready })
    (branches : ∀ state token ready branch sized next, holds state →
      state.ready = token :: ready → state.hopsByToken.lookup token = some branch →
      amountsForBranch branch (state.ledger.standingAt paths token) state.ledger
        (balanceAt state.balances token) = .ok sized →
      sized.foldlM (runSwap symbol market baseOverrides capture)
        { state with
          ready := ready
          hopsByToken := state.hopsByToken.erase token
          ledger := sized.foldl
            (fun ledger (swap, fed) => ledger.rescale fed swap.amountIn) state.ledger } =
        .ok next → holds next) (begins : holds state)
    (run : runReady symbol paths market baseOverrides capture fuel state = .ok final) :
    holds final := by
  induction fuel generalizing state with
  | zero =>
    cases run
    exact begins
  | succ fuel ih =>
    unfold runReady at run
    split at run
    · cases run
      exact begins
    · rename_i token ready released
      split at run
      · rename_i unused
        exact ih (pass state token ready begins released unused) run
      · rename_i branch found
        obtain ⟨middle, ran, rest⟩ := bind_eq_ok_iff.mp run
        obtain ⟨sized, divided, swapped⟩ := bind_eq_ok_iff.mp ran
        exact ih (branches state token ready branch sized middle begins released found divided
          swapped) rest

/-! ## The bound on the released tokens -/

private theorem length_ready_runSwaps {sized : List SizedSwap}
    (run : sized.foldlM (runSwap symbol market baseOverrides capture) state = .ok next) :
    next.hopsByToken = state.hopsByToken ∧
      next.ready.length ≤ state.ready.length + sized.length := by
  -- Each swap that is left may release one more token.
  refine foldlM_invariant (fun reached rest => reached.hopsByToken = state.hopsByToken ∧
    reached.ready.length + rest.length ≤ state.ready.length + sized.length) ?_
      ⟨rfl, Nat.le_refl _⟩ run
  rintro reached swap rest after ⟨same, bound⟩ first
  obtain ⟨executed, ran⟩ := runSwap_eq_ok first
  have released := length_release reached.inDegree reached.ready swap.1.hop.tokenOut.address
  rw [length_cons] at bound
  rw [ran.ready]
  exact ⟨ran.hopsByToken.trans same, by omega⟩

/-- The plan stops because no token is left, not because of the bound: each released token that
is run uses up one token, and every token is released by a swap of its own. -/
theorem ready_of_runReady {fuel : Nat}
    (enough : state.ready.length + (waiting state.hopsByToken).length ≤ fuel)
    (run : runReady symbol paths market baseOverrides capture fuel state = .ok final) :
    final.ready = [] := by
  induction fuel generalizing state with
  | zero =>
    cases run
    exact length_eq_zero_iff.mp (by omega)
  | succ fuel ih =>
    unfold runReady at run
    split at run
    · rename_i empty
      cases run
      exact empty
    · rename_i token ready queued
      rw [queued, length_cons] at enough
      split at run
      · exact ih (by dsimp only; omega) run
      · rename_i branch found
        obtain ⟨middle, ran, rest⟩ := bind_eq_ok_iff.mp run
        obtain ⟨sized, divided, swapped⟩ := bind_eq_ok_iff.mp ran
        obtain ⟨same, bound⟩ := length_ready_runSwaps swapped
        have parts := (amountsForBranch_eq_ok divided).1.length_eq
        have left := (waiting_erase state.hopsByToken token).length_eq
        rw [found, Option.getD_some, length_append] at left
        rw [length_map, length_map, length_map] at parts
        apply ih _ rest
        rw [same]
        dsimp only at bound ⊢
        omega

end Run

end Fynd
