import Mathlib.Algebra.Order.Floor.Semiring
import Mathlib.Data.Rat.Floor
import Mathlib.Tactic.Linarith
import Fynd.Encoding.ExclusiveSwap
import Fynd.Router.Ranking

/-!
# The exclusive overlay on a ranking

The best exclusive candidate of an order is pinned to a commitment and inserted into the
public ranking. Against a public reference the commitment matches it and hands the user a
share of the improvement. Without one, it is the candidate's output less a default fee on
the exclusive leg.
-/

namespace Fynd

open Foundation List

variable {P : Type}

/-- The fee on the exclusive leg where no public route exists, in basis points. -/
def noPublicRouteFeeBps : Nat := 5

/-- The part of an improvement that goes to the user, rounded up. -/
def userImprovementAmount (improvement userShareBps : Nat) : Nat :=
  (improvement * userShareBps + (bpsDenominator - 1)) / bpsDenominator

/-- What a route pays, before and after gas. -/
structure RouteOutput where
  amountOut : Nat
  amountOutNetGas : Nat

/-- What a quote pays. -/
def RouteOutput.fromQuote (quote : OrderQuote P) : RouteOutput :=
  ⟨quote.amountOut, quote.amountOutNetGas⟩

/-- The amount to commit against a public route. No commitment if the candidate nets or produces
less than it. None where the code panics: a net output above the output. -/
def matchedCommitment (reference candidate : RouteOutput) (userShareBps : Nat) :
    Option (Option Nat) :=
  if candidate.amountOutNetGas < reference.amountOutNetGas then some none
  else
    let improvement := candidate.amountOutNetGas - reference.amountOutNetGas
    let requiredNet := reference.amountOutNetGas + userImprovementAmount improvement userShareBps
    if candidate.amountOut < reference.amountOut then some none
    else (checkedSub candidate.amountOut candidate.amountOutNetGas).map fun gasCost =>
      some (max (requiredNet + gasCost) reference.amountOut)

/-- The route output of a quote's first exclusive leg, as a fraction. -/
def exclusiveLegOutput (quote : OrderQuote P) : Option (Nat × Nat) :=
  quote.route.bind fun route => (route.swaps.find? isExclusiveLeg).bind fun leg =>
    route.outputToken.bind fun outputToken => legRouteOutput route.swaps leg outputToken

/-- The amount to commit without a public quote. No commitment if it does not cover the gas. None
where the code panics: a fraction without a denominator, a fee or a net output above the output. -/
def defaultFeeCommitment (candidate : OrderQuote P) : Option (Option Nat) :=
  match exclusiveLegOutput candidate with
  | none => some none
  | some (numerator, denominator) =>
    if denominator = 0 then none
    else do
      let fee := scaleTruncating (numerator / denominator) noPublicRouteFeeBps
      let committed ← checkedSub candidate.amountOut fee
      let gasCost ← checkedSub candidate.amountOut candidate.amountOutNetGas
      return if committed ≤ gasCost then none else some committed

section

variable (responses : OrderResponses P) (poolScopes : Map String LiquidityScope)
  (options : QuoteOptions) (reference : Option (OrderQuote P)) (candidate : OrderQuote P)

/-- The amount to commit for a candidate. -/
def commitmentFor (userShareBps : Nat) : Option (Option Nat) :=
  match reference with
  | some quote => matchedCommitment (.fromQuote quote) (.fromQuote candidate) userShareBps
  | none => defaultFeeCommitment candidate

/-- What the user saves over the public quote, for the records. None where the code panics. -/
def userSavings (committed : Nat) : Option Nat :=
  match reference with
  | some quote => checkedSub committed quote.amountOut
  | none => some 0

/-- Inserts a quote before the first that nets no more. -/
def insertByNet (ranked : List (OrderQuote P)) (pinned : OrderQuote P) : List (OrderQuote P) :=
  ranked.insertIdx (ranked.findIdx fun quote => quote.amountOutNetGas ≤ pinned.amountOutNetGas)
    pinned

/-- Pins a candidate to a commitment, if there is one, and inserts it into a ranking. -/
def overlay (publicRanked : List (OrderQuote P)) : Option Nat → Option (List (OrderQuote P))
  | none => some publicRanked
  | some committed => do
      let _ ← userSavings reference committed
      let pinned ← pinCommitment candidate committed
      return insertByNet publicRanked pinned

/-- Inserts the best exclusive candidate, pinned to its commitment, into the public ranking. None
where the code panics. -/
def combineWithSurplus (publicRanked : List (OrderQuote P)) (userShareBps : Nat) :
    Option (List (OrderQuote P)) :=
  match bestExclusiveCandidate responses poolScopes options with
  | none => some publicRanked
  | some candidate =>
    let reference := findPublicReference publicRanked
    (commitmentFor reference candidate userShareBps).bind
      (overlay reference candidate publicRanked)

/-- The ranking of an order where exclusive routing is active. -/
def rankWithSurplus (userShareBps : Nat) : Option (List (OrderQuote P)) :=
  combineWithSurplus responses poolScopes options
    (rankQuotes (responses.publicOnly poolScopes) options) userShareBps

end

/-! ## The user's share -/

private theorem userImprovementAmount_eq (improvement userShareBps : Nat) :
    userImprovementAmount improvement userShareBps =
      ⌈(userShareBps * improvement : ℚ) / 10000⌉₊ := by
  apply le_antisymm
  · unfold userImprovementAmount bpsDenominator
    have ceiling : (userShareBps * improvement : ℚ) ≤
        ⌈(userShareBps * improvement : ℚ) / 10000⌉₊ * 10000 := by
      rw [← div_le_iff₀ (by norm_num)]
      exact Nat.le_ceil _
    have natural : userShareBps * improvement ≤
        ⌈(userShareBps * improvement : ℚ) / 10000⌉₊ * 10000 := by exact_mod_cast ceiling
    rw [Nat.mul_comm improvement]
    omega
  · rw [Nat.ceil_le, div_le_iff₀ (by norm_num)]
    have natural : userShareBps * improvement ≤
        userImprovementAmount improvement userShareBps * 10000 := by
      unfold userImprovementAmount bpsDenominator
      rw [Nat.mul_comm improvement]
      omega
    exact_mod_cast natural

private theorem userImprovementAmount_le {improvement userShareBps : Nat}
    (whole : userShareBps ≤ 10000) :
    userImprovementAmount improvement userShareBps ≤ improvement := by
  have scaled : improvement * userShareBps ≤ improvement * 10000 := Nat.mul_le_mul_left _ whole
  unfold userImprovementAmount bpsDenominator
  omega

/-! ## Inserting into a ranking -/

private theorem insertByNet_eq (ranked : List (OrderQuote P)) (pinned : OrderQuote P) :
    ∃ before after, ranked = before ++ after ∧
      insertByNet ranked pinned = before ++ pinned :: after ∧
      (∀ quote ∈ before, pinned.amountOutNetGas < quote.amountOutNetGas) ∧
      ∀ quote, after.head? = some quote → quote.amountOutNetGas ≤ pinned.amountOutNetGas := by
  induction ranked with
  | nil => exact ⟨[], [], rfl, rfl, by simp, by simp⟩
  | cons quote rest ih =>
    by_cases last : quote.amountOutNetGas ≤ pinned.amountOutNetGas
    · refine ⟨[], quote :: rest, rfl, ?_, by simp, ?_⟩
      · simp [insertByNet, findIdx_cons, last]
      · intro other found
        cases found
        exact last
    · obtain ⟨before, after, split, inserted, above, below⟩ := ih
      refine ⟨quote :: before, after, congrArg (quote :: ·) split, ?_, ?_, below⟩
      · unfold insertByNet at inserted ⊢
        simp only [findIdx_cons, last, decide_false, cond_false, insertIdx_succ_cons,
          inserted, cons_append]
      · intro other member
        rcases mem_cons.mp member with rfl | member
        · exact Nat.lt_of_not_le last
        · exact above other member

private theorem insertByNet_pairwise {ranked : List (OrderQuote P)} (pinned : OrderQuote P)
    (sorted : ranked.Pairwise NetsAtLeast) : (insertByNet ranked pinned).Pairwise NetsAtLeast := by
  obtain ⟨before, after, rfl, inserted, above, below⟩ := insertByNet_eq ranked pinned
  obtain ⟨sortedBefore, sortedAfter, across⟩ := pairwise_append.mp sorted
  rw [inserted]
  apply pairwise_append.mpr
  refine ⟨sortedBefore, pairwise_cons.mpr ⟨?_, sortedAfter⟩, ?_⟩
  · intro quote member
    rcases after with _ | ⟨first, rest⟩
    · cases member
    · have start : first.amountOutNetGas ≤ pinned.amountOutNetGas := below first rfl
      rcases mem_cons.mp member with rfl | later
      · exact start
      · exact ((pairwise_cons.mp sortedAfter).1 quote later).trans start
  · intro quote member other later
    rcases mem_cons.mp later with rfl | later
    · exact (above quote member).le
    · exact across quote member other later

/-! ## Commitments -/

section Commitments

variable {committed userShareBps : Nat}

section

variable {reference candidate : RouteOutput}

/-- What a commitment against a public route leaves the user and the candidate. -/
theorem matchedCommitment_eq_some (whole : userShareBps ≤ 10000)
    (done : matchedCommitment reference candidate userShareBps = some (some committed)) :
    reference.amountOut ≤ committed ∧ committed ≤ candidate.amountOut ∧
      reference.amountOutNetGas + userImprovementAmount
          (candidate.amountOutNetGas - reference.amountOutNetGas) userShareBps +
        (candidate.amountOut - candidate.amountOutNetGas) ≤ committed := by
  unfold matchedCommitment at done
  dsimp only at done
  split_ifs at done with netGate outGate
  · cases done
  · cases done
  · obtain ⟨gasCost, sub, same⟩ := Option.map_eq_some_iff.mp done
    obtain ⟨netWithin, rfl⟩ := checkedSub_eq_some sub
    obtain rfl := Option.some.inj same
    have share := @userImprovementAmount_le
      (candidate.amountOutNetGas - reference.amountOutNetGas) userShareBps whole
    refine ⟨Nat.le_max_right _ _, ?_, Nat.le_max_left _ _⟩
    apply Nat.max_le.mpr
    omega

private theorem matchedCommitment_isSome
    (netWithin : candidate.amountOutNetGas ≤ candidate.amountOut) :
    (matchedCommitment reference candidate userShareBps).isSome = true := by
  unfold matchedCommitment checkedSub
  dsimp only
  rw [if_pos netWithin]
  split_ifs <;> rfl

private theorem exists_matchedCommitment
    (netWithin : candidate.amountOutNetGas ≤ candidate.amountOut)
    (netGate : reference.amountOutNetGas ≤ candidate.amountOutNetGas)
    (outGate : reference.amountOut ≤ candidate.amountOut) :
    ∃ committed, matchedCommitment reference candidate userShareBps = some (some committed) := by
  unfold matchedCommitment checkedSub
  dsimp only
  rw [if_neg (Nat.not_lt.mpr netGate), if_neg (Nat.not_lt.mpr outGate), if_pos netWithin]
  exact ⟨_, rfl⟩

end

variable {reference candidate pinned : OrderQuote P} {numerator denominator : Nat}

section

variable (found : exclusiveLegOutput candidate = some (numerator, denominator))
include found

/-- The default fee is taken where the leg's route output is a proper fraction and the fee stays
within the output. -/
theorem defaultFeeCommitment_isSome_iff
    (netWithin : candidate.amountOutNetGas ≤ candidate.amountOut) :
    (defaultFeeCommitment candidate).isSome = true ↔
      denominator ≠ 0 ∧
        scaleTruncating (numerator / denominator) noPublicRouteFeeBps ≤ candidate.amountOut := by
  unfold defaultFeeCommitment checkedSub
  rw [found]
  by_cases zero : denominator = 0
  · simp [zero]
  · by_cases within :
        scaleTruncating (numerator / denominator) noPublicRouteFeeBps ≤ candidate.amountOut
    · simp [zero, within, netWithin]
    · simp [zero, within]

/-- A commitment without a public quote is the output less the default fee, and covers the gas. -/
theorem defaultFeeCommitment_eq_some
    (done : defaultFeeCommitment candidate = some (some committed)) :
    committed + scaleTruncating (numerator / denominator) noPublicRouteFeeBps =
        candidate.amountOut ∧
      candidate.amountOut - candidate.amountOutNetGas < committed := by
  unfold defaultFeeCommitment at done
  rw [found] at done
  dsimp only at done
  split at done
  · cases done
  · obtain ⟨amount, sub, done⟩ := Option.bind_eq_some_iff.mp done
    obtain ⟨gasCost, gas, done⟩ := Option.bind_eq_some_iff.mp done
    obtain ⟨feeWithin, rfl⟩ := checkedSub_eq_some sub
    obtain ⟨_, rfl⟩ := checkedSub_eq_some gas
    have result := Option.some.inj done
    split at result
    · cases result
    · cases result
      omega

end

variable {route : Route P} {outputToken : Address} (routed : candidate.route = some route)
  (ends : route.outputToken = some outputToken)
  (valid : exclusiveRouteShape route.swaps outputToken = .valid)
include routed ends valid

/-- The route output of the exclusive leg of a valid route. -/
theorem exclusiveLegOutput_of_valid :
    ∃ leg numerator denominator, route.swaps.filter isExclusiveLeg = [leg] ∧
      legRouteOutput route.swaps leg outputToken = some (numerator, denominator) ∧
      0 < numerator ∧ exclusiveLegOutput candidate = some (numerator, denominator) := by
  obtain ⟨leg, numerator, denominator, only, found, reaches⟩ := exists_leg_of_valid valid
  refine ⟨leg, numerator, denominator, only, found, reaches, ?_⟩
  have first : route.swaps.find? isExclusiveLeg = some leg := by
    rw [← head?_filter, only]
    rfl
  unfold exclusiveLegOutput
  rw [routed, Option.bind_some, first, Option.bind_some, ends, Option.bind_some, found]

/-- A candidate is pinned to a commitment that covers its gas exactly where the route output of its
leg is a proper fraction. -/
theorem pinCommitment_isSome_iff
    (found : exclusiveLegOutput candidate = some (numerator, denominator))
    (within : committed ≤ candidate.amountOut)
    (netWithin : candidate.amountOutNetGas ≤ candidate.amountOut)
    (gasCovered : candidate.amountOut - candidate.amountOutNetGas ≤ committed) :
    (pinCommitment candidate committed).isSome = true ↔ denominator ≠ 0 := by
  obtain ⟨leg, _, _, only, reached, positive, same⟩ := exclusiveLegOutput_of_valid routed ends valid
  rw [found] at same
  cases same
  have inside : leg ∈ route.swaps ∧ isExclusiveLeg leg = true :=
    mem_filter.mp (only ▸ mem_singleton_self leg)
  constructor
  · intro pins
    obtain ⟨quote, done⟩ := Option.isSome_iff_exists.mp pins
    obtain ⟨_, pinned, swaps, _⟩ := pinCommitment_eq_some done routed
    rw [ends] at swaps
    obtain ⟨after, before, left, _, step⟩ :=
      exists_of_forall₂_left (pinSwaps_forall₂ swaps) inside.1
    exact ((pinSwap_eq_some step).2.2 _ _ inside.2 reached positive).1.ne'
  · intro proper
    apply pinCommitment_isSome routed _ within netWithin gasCovered
    rw [ends]
    apply pinSwaps_isSome
    intro other member exclusive _ _ otherReached _
    obtain rfl : other = leg := by
      rw [← mem_singleton, ← only]
      exact mem_filter.mpr ⟨member, exclusive⟩
    rw [reached] at otherReached
    cases otherReached
    exact Nat.pos_of_ne_zero proper

end Commitments

/-! ## The overlay -/

/-- What a pinned quote promises: against a public quote at least its output and its net output with
the user's share of the improvement, without one the output less the default fee. The surplus is
what it leaves of the candidate's output. -/
structure Overlaid (reference : Option (OrderQuote P))
    (candidate pinned : OrderQuote P) (userShareBps : Nat) : Prop where
  pins : pinCommitment candidate pinned.amountOut = some pinned
  surplus : ∃ surplus, pinned.surplus = some ⟨surplus, pinned.amountOut⟩ ∧
    surplus + pinned.amountOut = candidate.amountOut
  matched : ∀ quote, reference = some quote → quote.amountOut ≤ pinned.amountOut ∧
    pinned.amountOut ≤ candidate.amountOut ∧
    quote.amountOutNetGas + ⌈(userShareBps *
      (candidate.amountOutNetGas - quote.amountOutNetGas : ℕ) : ℚ) / 10000⌉₊ ≤
        pinned.amountOutNetGas
  defaultFee : reference = none → ∃ numerator denominator,
    exclusiveLegOutput candidate = some (numerator, denominator) ∧
    pinned.amountOut + numerator / denominator * 5 / 10000 = candidate.amountOut ∧
    0 < pinned.amountOutNetGas

/-- The route output of the candidate's leg is a proper fraction where the commitment divides by it,
and the default fee on it stays within the candidate's output. -/
def FeeWithinOutput (reference : Option (OrderQuote P)) (candidate : OrderQuote P) : Prop :=
  ∀ numerator denominator, exclusiveLegOutput candidate = some (numerator, denominator) →
    (∀ quote, reference = some quote → quote.amountOutNetGas ≤ candidate.amountOutNetGas →
      quote.amountOut ≤ candidate.amountOut → denominator ≠ 0) ∧
    (reference = none → denominator ≠ 0 ∧
      numerator / denominator * 5 / 10000 ≤ candidate.amountOut)

section Overlay

variable {reference : Option (OrderQuote P)} {candidate pinned : OrderQuote P}
  {userShareBps committed : Nat} {publicRanked : List (OrderQuote P)}

section

variable {numerator denominator : Nat} (whole : userShareBps ≤ 10000)
  (found : exclusiveLegOutput candidate = some (numerator, denominator))
  (done : commitmentFor reference candidate userShareBps = some (some committed))
include whole found done

/-- What a commitment leaves: it stays within the output, covers the gas, and is not below the
public quote. -/
theorem commitmentFor_eq_some : committed ≤ candidate.amountOut ∧
      candidate.amountOut - candidate.amountOutNetGas ≤ committed ∧
      ∀ quote, reference = some quote → quote.amountOut ≤ committed := by
  cases reference with
  | some quote =>
    obtain ⟨least, most, net⟩ := matchedCommitment_eq_some whole done
    dsimp only [RouteOutput.fromQuote] at least most net
    refine ⟨most, by omega, ?_⟩
    intro other same
    cases same
    exact least
  | none =>
    obtain ⟨amount, gas⟩ := defaultFeeCommitment_eq_some found done
    exact ⟨by omega, gas.le, fun _ same => nomatch same⟩

private theorem overlaid_of_pinned (pins : pinCommitment candidate committed = some pinned) :
    Overlaid reference candidate pinned userShareBps := by
  obtain ⟨amount, net, surplus⟩ := pinCommitment_amounts pins
  obtain ⟨within, gasCovered, _⟩ := commitmentFor_eq_some whole found done
  subst amount
  refine ⟨pins, ⟨_, surplus, by omega⟩, ?_, ?_⟩
  · intro quote same
    subst same
    obtain ⟨least, most, required⟩ := matchedCommitment_eq_some whole done
    dsimp only [RouteOutput.fromQuote] at least most required
    rw [userImprovementAmount_eq] at required
    exact ⟨least, most, by omega⟩
  · intro absent
    subst absent
    obtain ⟨amount, gas⟩ := defaultFeeCommitment_eq_some found done
    exact ⟨numerator, denominator, found, amount, by omega⟩

end

private theorem overlay_isSome_iff
    (least : ∀ quote, reference = some quote → quote.amountOut ≤ committed) :
    (overlay reference candidate publicRanked (some committed)).isSome = true ↔
      (pinCommitment candidate committed).isSome = true := by
  have saved : ∃ savings, userSavings reference committed = some savings := by
    cases reference with
    | some quote => exact ⟨_, if_pos (least quote rfl)⟩
    | none => exact ⟨0, rfl⟩
  obtain ⟨savings, saved⟩ := saved
  simp only [overlay, saved, Option.bind_eq_bind, Option.bind_some]
  cases pinCommitment candidate committed <;> exact Iff.rfl

section Candidate

variable (publicRanked) (whole : userShareBps ≤ 10000)
  (netWithin : candidate.amountOutNetGas ≤ candidate.amountOut)
  {route : Route P} {outputToken : Address} (routed : candidate.route = some route)
  (ends : route.outputToken = some outputToken)
  (valid : exclusiveRouteShape route.swaps outputToken = .valid)

include whole netWithin routed ends valid

/-- The commitment of a candidate can be overlaid exactly where its leg's route output is a proper
fraction. -/
theorem overlay_isSome_iff_denominator {numerator denominator : Nat}
    (found : exclusiveLegOutput candidate = some (numerator, denominator))
    (done : commitmentFor reference candidate userShareBps = some (some committed)) :
    (overlay reference candidate publicRanked (some committed)).isSome = true ↔
      denominator ≠ 0 := by
  obtain ⟨within, gasCovered, least⟩ := commitmentFor_eq_some whole found done
  rw [overlay_isSome_iff least]
  exact pinCommitment_isSome_iff routed ends valid found within netWithin gasCovered

/-- A candidate's commitment is computed and overlaid without a panic exactly under the condition
on its leg. -/
theorem overlaid_isSome_iff (reference : Option (OrderQuote P)) :
    ((commitmentFor reference candidate userShareBps).bind
        (overlay reference candidate publicRanked)).isSome = true ↔
      FeeWithinOutput reference candidate := by
  obtain ⟨_, numerator, denominator, _, _, _, found⟩ :=
    exclusiveLegOutput_of_valid routed ends valid
  constructor
  · intro returns n d foundAgain
    rw [found] at foundAgain
    cases foundAgain
    obtain ⟨ranked, done⟩ := Option.isSome_iff_exists.mp returns
    obtain ⟨commitment, commits, inserted⟩ := Option.bind_eq_some_iff.mp done
    refine ⟨?_, ?_⟩
    · intro quote same netGate outGate
      subst same
      obtain ⟨committed, matched⟩ : ∃ committed,
          commitmentFor (some quote) candidate userShareBps = some (some committed) :=
        exists_matchedCommitment netWithin netGate outGate
      apply (overlay_isSome_iff_denominator publicRanked whole netWithin routed ends valid found
        matched).mp
      obtain rfl := Option.some.inj (commits.symm.trans matched)
      exact Option.isSome_iff_exists.mpr ⟨ranked, inserted⟩
    · intro absent
      subst absent
      apply (defaultFeeCommitment_isSome_iff found netWithin).mp
      exact Option.isSome_iff_exists.mpr ⟨commitment, commits⟩
  · intro safe
    obtain ⟨matched, unmatched⟩ := safe numerator denominator found
    have computed : (commitmentFor reference candidate userShareBps).isSome = true := by
      cases reference with
      | some quote => exact matchedCommitment_isSome netWithin
      | none => exact (defaultFeeCommitment_isSome_iff found netWithin).mpr (unmatched rfl)
    obtain ⟨commitment, commits⟩ := Option.isSome_iff_exists.mp computed
    rw [commits, Option.bind_some]
    cases commitment with
    | none => rfl
    | some committed =>
      apply (overlay_isSome_iff_denominator publicRanked whole netWithin routed ends valid
        found commits).mpr
      cases reference with
      | some quote =>
        obtain ⟨least, most, net⟩ := matchedCommitment_eq_some whole commits
        dsimp only [RouteOutput.fromQuote] at least most net
        exact matched quote rfl (by omega) (by omega)
      | none => exact (unmatched rfl).1

end Candidate

end Overlay

section Ranking

variable (responses : OrderResponses P) (poolScopes : Map String LiquidityScope)
  (options : QuoteOptions)

/-- A ranking that holds the public ranking in order, with at most one pinned candidate. -/
def OverlaidRanking (userShareBps : Nat) (ranked : List (OrderQuote P)) : Prop :=
  let publicRanked := rankQuotes (responses.publicOnly poolScopes) options
  ranked = publicRanked ∨ ∃ candidate pinned before after,
    bestExclusiveCandidate responses poolScopes options = some candidate ∧
    publicRanked = before ++ after ∧ ranked = before ++ pinned :: after ∧
    Overlaid (findPublicReference publicRanked) candidate pinned userShareBps

/-- **The exclusive overlay.** For worker responses whose exclusive candidates net no more than they
produce, the router returns a ranking by net output that is the public one with at most one pinned
quote, which keeps its promises to the user, exactly when the default fee stays within the output of
the best candidate and no commitment divides by zero. -/
theorem surplus_overlay_iff {userShareBps : Nat} (whole : userShareBps ≤ 10000)
    (netWithin : ∀ quote ∈ exclusiveCandidates responses poolScopes options,
      quote.amountOutNetGas ≤ quote.amountOut) :
    (∃ ranked, rankWithSurplus responses poolScopes options userShareBps = some ranked ∧
        ranked.Pairwise (fun quote other => other.amountOutNetGas ≤ quote.amountOutNetGas) ∧
        OverlaidRanking responses poolScopes options userShareBps ranked) ↔
      ∀ candidate, bestExclusiveCandidate responses poolScopes options = some candidate →
        FeeWithinOutput
          (findPublicReference (rankQuotes (responses.publicOnly poolScopes) options))
          candidate := by
  have sorted := rankQuotes_pairwise (responses.publicOnly poolScopes) options
  unfold rankWithSurplus combineWithSurplus OverlaidRanking
  generalize rankQuotes (responses.publicOnly poolScopes) options = publicRanked at sorted ⊢
  cases best : bestExclusiveCandidate responses poolScopes options with
  | none =>
    refine iff_of_true ⟨publicRanked, rfl, sorted, .inl rfl⟩ fun candidate absent => ?_
    cases absent
  | some candidate =>
    obtain ⟨member, route, outputToken, routed, ends, valid⟩ := bestExclusiveCandidate_valid best
    have panics := overlaid_isSome_iff publicRanked whole (netWithin candidate member) routed ends
      valid (findPublicReference publicRanked)
    obtain ⟨_, numerator, denominator, _, _, _, found⟩ :=
      exclusiveLegOutput_of_valid routed ends valid
    constructor
    · rintro ⟨ranked, done, _⟩ other same
      cases same
      exact panics.mp (Option.isSome_iff_exists.mpr ⟨ranked, done⟩)
    · intro safe
      obtain ⟨ranked, done⟩ := Option.isSome_iff_exists.mp (panics.mpr (safe candidate rfl))
      refine ⟨ranked, done, ?_⟩
      obtain ⟨commitment, commits, inserted⟩ := Option.bind_eq_some_iff.mp done
      cases commitment with
      | none =>
        cases inserted
        exact ⟨sorted, .inl rfl⟩
      | some committed =>
        obtain ⟨_, _, inserted⟩ := Option.bind_eq_some_iff.mp inserted
        obtain ⟨pinned, pins, inserted⟩ := Option.bind_eq_some_iff.mp inserted
        cases inserted
        obtain ⟨before, after, split, shape, _, _⟩ := insertByNet_eq publicRanked pinned
        refine ⟨insertByNet_pairwise pinned sorted, .inr ?_⟩
        exact ⟨candidate, pinned, before, after, rfl, split, shape,
          overlaid_of_pinned whole found commits pins⟩

end Ranking

/-! ## Samples -/

section Samples

/-- A route over one pool that produces 10000. -/
def singleSwapRoute (attributes : Map String (List UInt8)) : Route Unit where
  swaps := [⟨"a", "ekubo", 0, 1, 100, 10000, 0, ⟨"a", "ekubo", [0, 1], attributes⟩, (), 0.0, none,
    none⟩]
  tokens := ∅

def singleRouteQuote (attributes : Map String (List UInt8)) (amountOut amountOutNetGas : Nat) :
    OrderQuote Unit :=
  { status := .success, route := some (singleSwapRoute attributes), amountIn := 100
    amountOut := amountOut, gasEstimate := 0, amountOutNetGas := amountOutNetGas
    sender := [], receiver := [] }

def exclusiveQuote : OrderQuote Unit :=
  singleRouteQuote (AList.insert "is_exclusive" [1] ∅) 10000 9990

/-- One worker pool that may use exclusive liquidity, and one that may not. -/
def sampleScopes : Map String LiquidityScope :=
  AList.insert "exclusive" .includeExclusive (AList.insert "public" .publicOnly ∅)

/-- The answer of a worker whose post-processor pinned the route to an output of 4. -/
def pinnedResponses : OrderResponses Unit where
  quotes := (pinCommitment (singleRouteQuote (AList.insert "is_exclusive" [1] ∅) 10000 9997)
    4).toList.map (⟨"exclusive", ·⟩)
  failedSolvers := []

/-- A worker pinned its route to an output of 4, of which it nets 1. Without a public quote, the
default fee of 5 on the 10000 that the leg produces is taken from the output of 4. -/
theorem pinned_candidate_underflows :
    (∃ candidate, bestExclusiveCandidate pinnedResponses sampleScopes {} = some candidate ∧
      candidate.amountOut = 4 ∧ candidate.amountOutNetGas = 1) ∧
    (∀ quote ∈ exclusiveCandidates pinnedResponses sampleScopes {},
      quote.amountOutNetGas ≤ quote.amountOut) ∧
    rankWithSurplus pinnedResponses sampleScopes {} 1000 = none := by
  refine ⟨?_, by decide +kernel, Option.isNone_iff_eq_none.mp (by decide +kernel)⟩
  have found : (bestExclusiveCandidate pinnedResponses sampleScopes {}).any (fun candidate =>
      candidate.amountOut = 4 && candidate.amountOutNetGas = 1) = true := by decide +kernel
  obtain ⟨candidate, best, amounts⟩ := (Option.any_eq_true _ _).mp found
  exact ⟨candidate, best, by simpa using amounts⟩

/-- A public quote of 9900 and an exclusive one of 10000. -/
def matchedResponses : OrderResponses Unit where
  quotes := [⟨"public", singleRouteQuote ∅ 9900 9890⟩, ⟨"exclusive", exclusiveQuote⟩]
  failedSolvers := []

/-- The exclusive quote is pinned and ranked with the public one. -/
theorem matched_candidate_overlaid :
    ∃ ranked, rankWithSurplus matchedResponses sampleScopes {} 1000 = some ranked ∧
      ranked.Pairwise (fun quote other => other.amountOutNetGas ≤ quote.amountOutNetGas) ∧
      OverlaidRanking matchedResponses sampleScopes {} 1000 ranked := by
  apply (surplus_overlay_iff matchedResponses sampleScopes {} (by decide) (by decide +kernel)).mpr
  intro candidate best numerator denominator found
  have proper : (bestExclusiveCandidate matchedResponses sampleScopes {}).all (fun candidate =>
      (exclusiveLegOutput candidate).all fun output =>
        output.2 ≠ 0 && output.1 / output.2 * 5 / 10000 ≤ candidate.amountOut) = true := by
    decide +kernel
  rw [best, Option.all_some, found, Option.all_some, Bool.and_eq_true, decide_eq_true_eq,
    decide_eq_true_eq] at proper
  exact ⟨fun _ _ _ _ => proper.1, fun _ => proper⟩

end Samples

end Fynd
