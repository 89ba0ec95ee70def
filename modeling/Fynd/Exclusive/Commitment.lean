import Fynd.Feed.ComponentFilter
import Fynd.Foundation.Fallible
import Fynd.Types.Route

/-!
# The commitment of an exclusive route

A route through an exclusive component commits to an output, and the exclusive leg
keeps what the route produces above it. The route output that a leg produces is a
fraction: a leg that ends elsewhere than in the output token has the share of its
token's route output that its output makes up of all that later swaps take of the
token.
-/

namespace Fynd

open Foundation List

variable {P : Type}

/-- Whether a swap goes through an exclusive component. -/
def isExclusiveLeg (swap : Swap P) : Bool := isExclusive swap.protocolComponent

/-- Whether any swap goes through an exclusive component. -/
def routesThroughExclusive (swaps : List (Swap P)) : Bool := swaps.any isExclusiveLeg

/-- How much of a token the swaps take in. -/
def totalAmountInForToken (swaps : List (Swap P)) (token : Address) : Nat :=
  ((swaps.filter fun swap => swap.tokenIn = token).map Swap.amountIn).sum

/-- Adds one swap's fraction to a sum of fractions. A zero numerator is skipped. -/
def addFraction (sum part : Nat × Nat) : Nat × Nat :=
  if part.1 = 0 then sum else (sum.1 * part.2 + part.1 * sum.2, sum.2 * part.2)

/-- The route output that the swaps taking a token produce from it, or none if they loop back to a
token of the path. The path has no more tokens than there are swaps, which bounds the depth. -/
def tokenRouteOutputIn (swaps : List (Swap P)) (outputToken : Address) :
    Nat → List Address → Address → Option (Nat × Nat)
  | 0, _, _ => none
  | depth + 1, path, token =>
    if token ∈ path then none
    else (swaps.filter fun swap => swap.tokenIn = token).foldlM (fun sum swap =>
      if swap.tokenOut = outputToken then some (addFraction sum (swap.amountOut, 1))
      else (tokenRouteOutputIn swaps outputToken depth (token :: path) swap.tokenOut).map
        fun next => addFraction sum
          (swap.amountOut * next.1, next.2 * totalAmountInForToken swaps swap.tokenOut)) (0, 1)

/-- The route output that the swaps taking a token produce from it. -/
def tokenRouteOutput (swaps : List (Swap P)) (token outputToken : Address)
    (path : List Address) : Option (Nat × Nat) :=
  tokenRouteOutputIn swaps outputToken (swaps.length + 1) path token

/-- The route output that a leg's output produces, as a fraction. -/
def legRouteOutput (swaps : List (Swap P)) (leg : Swap P) (outputToken : Address) :
    Option (Nat × Nat) :=
  if leg.tokenOut = outputToken then some (leg.amountOut, 1)
  else
    let consumed := totalAmountInForToken swaps leg.tokenOut
    if consumed = 0 then some (0, 1)
    else (tokenRouteOutput swaps leg.tokenOut outputToken []).map fun output =>
      (leg.amountOut * output.1, output.2 * consumed)

/-- How the exclusive legs of a route fit the rules. -/
inductive ExclusiveRouteShape
  | valid
  | noExclusiveLeg
  | multipleLegs
  | doesNotReachOutput
  deriving DecidableEq, Repr

/-- The shape of the exclusive legs of a route. -/
def exclusiveRouteShape (swaps : List (Swap P)) (outputToken : Address) : ExclusiveRouteShape :=
  match swaps.filter isExclusiveLeg with
  | [] => .noExclusiveLeg
  | [leg] =>
    if (legRouteOutput swaps leg outputToken).any fun output => 0 < output.1 then .valid
    else .doesNotReachOutput
  | _ => .multipleLegs

/-- A subtraction that panics below zero. -/
def checkedSub (left right : Nat) : Option Nat := if right ≤ left then some (left - right) else none

/-- Captures of the surplus what one swap can absorb, and sets the swap's committed amount. Not an
exclusive leg, or one that does not reach the output: nothing is captured. A zero denominator
panics. -/
def pinSwap (swaps : List (Swap P)) (outputToken : Option Address) (surplus : Nat)
    (swap : Swap P) : Option (Nat × Swap P) :=
  if isExclusiveLeg swap then
    match outputToken.bind (legRouteOutput swaps swap) with
    | none => some (surplus, swap)
    | some (numerator, denominator) =>
      if numerator = 0 then some (surplus, swap)
      else if denominator = 0 then none
      else
        let captured := min surplus (numerator / denominator)
        let capturedSwapAmountOut := captured * swap.amountOut * denominator / numerator
        (checkedSub swap.amountOut capturedSwapAmountOut).map fun committed =>
          (surplus - captured, { swap with committedAmountOut := some committed })
  else some (surplus, swap)

/-- Captures the surplus at the exclusive legs, in route order. -/
def pinSwaps (swaps : List (Swap P)) (outputToken : Option Address) :
    Nat → List (Swap P) → Option (List (Swap P))
  | _, [] => some []
  | surplus, swap :: rest => do
      let (left, pinned) ← pinSwap swaps outputToken surplus swap
      let others ← pinSwaps swaps outputToken left rest
      return pinned :: others

/-- Captures the surplus at the exclusive legs of a route, if there is one. -/
def pinRoute (surplus : Nat) : Option (Route P) → Option (Option (Route P))
  | none => some none
  | some route => (pinSwaps route.swaps route.outputToken surplus route.swaps).map fun swaps =>
    some { route with swaps := swaps }

/-- Sets a quote to a committed output. None where the code panics: a commitment above the output,
or amounts net of gas that fall below zero. -/
def pinCommitment (candidate : OrderQuote P) (committedAmountOut : Nat) :
    Option (OrderQuote P) := do
  let gasCost ← checkedSub candidate.amountOut candidate.amountOutNetGas
  let surplus ← checkedSub candidate.amountOut committedAmountOut
  let route ← pinRoute surplus candidate.route
  let netOfGas ← checkedSub committedAmountOut gasCost
  return { candidate with
    route := route
    amountOut := committedAmountOut
    amountOutNetGas := netOfGas
    surplus := some ⟨surplus, committedAmountOut⟩ }

/-! ## What pinning does to the swaps -/

section Pinning

variable {swaps : List (Swap P)} {outputToken : Address}

/-- A route of valid shape has one exclusive leg, which reaches the output. -/
theorem exists_leg_of_valid (valid : exclusiveRouteShape swaps outputToken = .valid) :
    ∃ leg numerator denominator, swaps.filter isExclusiveLeg = [leg] ∧
      legRouteOutput swaps leg outputToken = some (numerator, denominator) ∧ 0 < numerator := by
  unfold exclusiveRouteShape at valid
  split at valid
  · cases valid
  · rename_i leg only
    split at valid
    · rename_i reaches
      obtain ⟨output, found, positive⟩ := (Option.any_eq_true _ _).mp reaches
      exact ⟨leg, output.1, output.2, only, found, by simpa using positive⟩
    · cases valid
  · cases valid

variable {surplus left : Nat} {candidate quote : OrderQuote P} {committed : Nat} {route : Route P}

section

variable {swap pinned : Swap P}
  (done : pinSwap swaps (some outputToken) surplus swap = some (left, pinned))
include done

/-- A pinned swap is the swap itself but for its committed amount. An exclusive leg that reaches
the output gets one: its output less the captured surplus at the leg's own price. -/
theorem pinSwap_eq_some : pinned = { swap with committedAmountOut := pinned.committedAmountOut } ∧
      (isExclusiveLeg swap = false → pinned = swap ∧ left = surplus) ∧
      ∀ numerator denominator, isExclusiveLeg swap = true →
        legRouteOutput swaps swap outputToken = some (numerator, denominator) → 0 < numerator →
        0 < denominator ∧ pinned.committedAmountOut = some (swap.amountOut -
          min surplus (numerator / denominator) * swap.amountOut * denominator / numerator) := by
  unfold pinSwap at done
  rw [Option.bind_some] at done
  split at done
  · rename_i exclusive
    refine ⟨?_, fun plain => absurd (plain.symm.trans exclusive) Bool.false_ne_true,
      fun numerator denominator _ found positive => ?_⟩
    · split at done
      · cases done
        rfl
      · split_ifs at done
        · cases done
          rfl
        · obtain ⟨committed, _, same⟩ := Option.map_eq_some_iff.mp done
          cases same
          rfl
    · rw [found] at done
      simp only [Nat.ne_of_gt positive, if_false] at done
      split_ifs at done with zero
      obtain ⟨committed, sub, same⟩ := Option.map_eq_some_iff.mp done
      cases same
      unfold checkedSub at sub
      split at sub
      · exact ⟨Nat.pos_of_ne_zero zero, congrArg some (Option.some.inj sub).symm⟩
      · cases sub
  · rename_i plain
    cases done
    refine ⟨rfl, fun _ => ⟨rfl, rfl⟩, fun _ _ exclusive => ?_⟩
    exact absurd exclusive plain

private theorem pinSwap_left_le : left ≤ surplus := by
  unfold pinSwap at done
  split at done
  · split at done
    · cases done
      exact le_rfl
    · split_ifs at done
      · cases done
        exact le_rfl
      · obtain ⟨_, _, same⟩ := Option.map_eq_some_iff.mp done
        cases same
        exact Nat.sub_le _ _
  · cases done
    exact le_rfl

end

/-- Every swap is pinned with what is left of the surplus. -/
theorem pinSwaps_forall₂ {rest pinned : List (Swap P)}
    (done : pinSwaps swaps (some outputToken) surplus rest = some pinned) :
    List.Forall₂ (fun swap after => ∃ before left, before ≤ surplus ∧
      pinSwap swaps (some outputToken) before swap = some (left, after)) rest pinned := by
  induction rest generalizing surplus pinned with
  | nil =>
    cases done
    exact .nil
  | cons swap rest ih =>
    obtain ⟨first, here, done⟩ := Option.bind_eq_some_iff.mp done
    obtain ⟨others, later, done⟩ := Option.bind_eq_some_iff.mp done
    cases done
    refine .cons ⟨surplus, first.1, le_rfl, here⟩ ((ih later).imp ?_)
    rintro swap after ⟨before, left, within, step⟩
    exact ⟨before, left, within.trans (pinSwap_left_le here), step⟩

theorem captured_le {amountOut numerator denominator : Nat} (surplus : Nat) :
    min surplus (numerator / denominator) * amountOut * denominator / numerator ≤ amountOut := by
  apply Nat.div_le_of_le_mul
  have absorbed : min surplus (numerator / denominator) * denominator ≤ numerator :=
    (Nat.mul_le_mul_right _ (Nat.min_le_right _ _)).trans (Nat.div_mul_le_self _ _)
  calc
    min surplus (numerator / denominator) * amountOut * denominator =
        min surplus (numerator / denominator) * denominator * amountOut := Nat.mul_right_comm _ _ _
    _ ≤ numerator * amountOut := Nat.mul_le_mul_right _ absorbed

theorem pinSwaps_isSome (surplus : Nat) {rest : List (Swap P)}
    (proper : ∀ leg ∈ rest, isExclusiveLeg leg = true → ∀ numerator denominator,
      legRouteOutput swaps leg outputToken = some (numerator, denominator) → 0 < numerator →
        0 < denominator) :
    (pinSwaps swaps (some outputToken) surplus rest).isSome = true := by
  induction rest generalizing surplus with
  | nil => rfl
  | cons swap rest ih =>
    have here : ∃ first, pinSwap swaps (some outputToken) surplus swap = some first := by
      apply Option.isSome_iff_exists.mp
      unfold pinSwap
      rw [Option.bind_some]
      split
      · rename_i exclusive
        split
        · rfl
        · rename_i numerator denominator found
          split_ifs with zero absent
          · rfl
          · exact absurd absent
              (proper swap mem_cons_self exclusive _ _ found (Nat.pos_of_ne_zero zero)).ne'
          · simp only [checkedSub, captured_le, if_true, Option.isSome_map, Option.isSome_some]
      · rfl
    obtain ⟨first, pinned⟩ := here
    obtain ⟨others, later⟩ := Option.isSome_iff_exists.mp
      (ih first.1 fun leg member => proper leg (mem_cons_of_mem _ member))
    unfold pinSwaps
    rw [pinned]
    simp only [Option.bind_eq_bind, Option.bind_some, later]
    rfl

theorem checkedSub_eq_some {right difference : Nat} (done : checkedSub left right =
    some difference) :
    right ≤ left ∧ difference = left - right := by
  unfold checkedSub at done
  split at done
  · rename_i within
    exact ⟨within, (Option.some.inj done).symm⟩
  · cases done

theorem pinCommitment_eq_some (done : pinCommitment candidate committed = some quote)
    (routed : candidate.route = some route) : committed ≤ candidate.amountOut ∧ ∃ pinned,
      pinSwaps route.swaps route.outputToken (candidate.amountOut - committed) route.swaps =
        some pinned ∧ quote.route = some { route with swaps := pinned } := by
  obtain ⟨_, _, done⟩ := Option.bind_eq_some_iff.mp done
  obtain ⟨surplus, sub, done⟩ := Option.bind_eq_some_iff.mp done
  obtain ⟨pinnedRoute, pins, done⟩ := Option.bind_eq_some_iff.mp done
  obtain ⟨_, _, done⟩ := Option.bind_eq_some_iff.mp done
  rw [routed] at pins
  obtain ⟨pinned, here, same⟩ := Option.map_eq_some_iff.mp pins
  obtain ⟨within, rfl⟩ := checkedSub_eq_some sub
  cases done
  exact ⟨within, pinned, here, same.symm⟩

/-- What a pinned quote pays, nets and leaves as surplus. -/
theorem pinCommitment_amounts (done : pinCommitment candidate committed = some quote) :
    quote.amountOut = committed ∧
      quote.amountOutNetGas =
        committed - (candidate.amountOut - candidate.amountOutNetGas) ∧
      quote.surplus = some ⟨candidate.amountOut - committed, committed⟩ := by
  obtain ⟨gasCost, gas, done⟩ := Option.bind_eq_some_iff.mp done
  obtain ⟨surplus, sub, done⟩ := Option.bind_eq_some_iff.mp done
  obtain ⟨_, _, done⟩ := Option.bind_eq_some_iff.mp done
  obtain ⟨netOfGas, net, done⟩ := Option.bind_eq_some_iff.mp done
  obtain ⟨_, rfl⟩ := checkedSub_eq_some gas
  obtain ⟨_, rfl⟩ := checkedSub_eq_some sub
  obtain ⟨_, rfl⟩ := checkedSub_eq_some net
  cases done
  exact ⟨rfl, rfl, rfl⟩

/-- A quote whose gas is covered is pinned where the swaps of its route are. -/
theorem pinCommitment_isSome (routed : candidate.route = some route)
    (pins : (pinSwaps route.swaps route.outputToken (candidate.amountOut - committed)
      route.swaps).isSome = true) (within : committed ≤ candidate.amountOut)
    (netOfGas : candidate.amountOutNetGas ≤ candidate.amountOut)
    (gasCovered : candidate.amountOut - candidate.amountOutNetGas ≤ committed) :
    (pinCommitment candidate committed).isSome = true := by
  obtain ⟨pinned, pins⟩ := Option.isSome_iff_exists.mp pins
  have pinsRoute : pinRoute (candidate.amountOut - committed) candidate.route =
      some (some { route with swaps := pinned }) := by
    rw [routed]
    change (pinSwaps _ route.outputToken _ _).map _ = _
    rw [pins]
    rfl
  unfold pinCommitment checkedSub
  simp only [netOfGas, within, gasCovered, pinsRoute, if_true, Option.bind_eq_bind,
    Option.bind_some]
  rfl

/-- Every exclusive leg of a pinned route of valid shape carries a committed amount. -/
theorem committed_of_pinned (routed : candidate.route = some route)
    (ends : route.outputToken = some outputToken)
    (valid : exclusiveRouteShape route.swaps outputToken = .valid)
    (done : pinCommitment candidate committed = some quote) {pinnedRoute : Route P}
    (result : quote.route = some pinnedRoute) :
    ∀ swap ∈ pinnedRoute.swaps, isExclusiveLeg swap = true →
      swap.committedAmountOut.isSome = true := by
  obtain ⟨_, pinned, pins, same⟩ := pinCommitment_eq_some done routed
  obtain rfl := Option.some.inj (result.symm.trans same)
  obtain ⟨leg, numerator, denominator, only, reaches, positive⟩ := exists_leg_of_valid valid
  rw [ends] at pins
  intro after member exclusive
  obtain ⟨swap, inside, before, left, _, step⟩ :=
    exists_of_forall₂_right (pinSwaps_forall₂ pins) member
  obtain ⟨shape, _, commits⟩ := pinSwap_eq_some step
  have through : isExclusiveLeg swap = true := by
    rw [shape] at exclusive
    exact exclusive
  obtain rfl : swap = leg := by
    rw [← mem_singleton, ← only, mem_filter]
    exact ⟨inside, through⟩
  rw [(commits numerator denominator through reaches positive).2]
  rfl

end Pinning

end Fynd
