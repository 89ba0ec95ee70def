import Mathlib.Data.Rat.Floor
import Mathlib.Tactic.FieldSimp
import Mathlib.Tactic.Linarith
import Fynd.Encoding.ExclusiveSwap
import Fynd.Exclusive.RouteOutput

/-!
# What the user gets of a pinned route

A pinned route runs over pools that give no less than in proportion for a part of their
input. The exclusive leg pays its pool's output less the fee signed for its committed
amount, and every swap after it takes its part of a smaller balance. The leg still pays
its committed amount, and the route still pays the output it was pinned to.
-/

namespace Fynd

open Foundation List

variable {P : Type}

/-- What the pool of an exclusive leg keeps of its output: the fee signed for the committed amount,
rounded up. -/
def feeCharged (swap : Swap P) (gross : ℚ) : ℚ :=
  if isExclusiveLeg swap then
    swap.committedAmountOut.elim 0 fun committed =>
      ((⌈gross * deriveFeeQ32 swap.amountOut committed / 2 ^ 32⌉ : ℤ) : ℚ)
  else 0

/-- The swaps run over pools, one for each position: every swap takes its part of what is left of
its token, and pays what its pool gives for it less the fee. -/
def Executes (pool : Nat → ℚ → ℚ) (supply : Address → Nat) (swaps : List (Swap P))
    (paid : Fin swaps.length → ℚ) : Prop :=
  (swapNetwork swaps supply).Settles
    (fun i received => pool i received - feeCharged (swaps.get i) (pool i received)) paid

/-- The pools give the quoted outputs for the quoted inputs. -/
def QuotedBy (pool : Nat → ℚ → ℚ) (swaps : List (Swap P)) : Prop :=
  ∀ i swap, swaps[i]? = some swap → pool i swap.amountIn = swap.amountOut

/-! ## The fee -/

private theorem fee_le_of_committed {gross committed : Nat} (within : committed ≤ gross) :
    ((⌈(gross : ℚ) * deriveFeeQ32 gross committed / 2 ^ 32⌉ : ℤ) : ℚ) ≤ gross - committed := by
  have scaled : gross * deriveFeeQ32 gross committed ≤ (gross - committed) * 2 ^ 32 := by
    unfold deriveFeeQ32
    split
    · exact Nat.zero_le _
    · calc
        gross * min ((gross - committed) * 2 ^ 32 / gross) (2 ^ 32 - 1) ≤
            gross * ((gross - committed) * 2 ^ 32 / gross) :=
          Nat.mul_le_mul_left _ (Nat.min_le_left _ _)
        _ ≤ (gross - committed) * 2 ^ 32 := Nat.mul_div_le _ _
  have rational : (gross : ℚ) * deriveFeeQ32 gross committed / 2 ^ 32 ≤
      ((gross - committed : ℕ) : ℤ) := by
    rw [div_le_iff₀ (by positivity)]
    exact_mod_cast scaled
  have rounded : ((⌈(gross : ℚ) * deriveFeeQ32 gross committed / 2 ^ 32⌉ : ℤ) : ℚ) ≤
      (((gross - committed : ℕ) : ℤ) : ℚ) := by
    exact_mod_cast Int.ceil_le.mpr rational
  rwa [Int.cast_natCast, Nat.cast_sub within] at rounded

private theorem feeCharged_nonneg (swap : Swap P) {gross : ℚ} (nonneg : 0 ≤ gross) :
    0 ≤ feeCharged swap gross := by
  unfold feeCharged
  split
  · cases swap.committedAmountOut with
    | none => exact le_rfl
    | some committed =>
      rw [Option.elim_some]
      exact_mod_cast Int.ceil_nonneg (by positivity)
  · exact le_rfl

/-! ## Running the swaps -/

section Running

variable {route : Route P} {supply : Address → Nat} {outputToken : Address} {pool : Nat → ℚ → ℚ}
  {leg : Swap P} {committed : Nat} {paid : Fin route.swaps.length → ℚ}

private theorem quotedBy_get {swaps : List (Swap P)} (quoted : QuotedBy pool swaps)
    (i : Fin swaps.length) : pool i (swaps.get i).amountIn = (swaps.get i).amountOut :=
  quoted i _ (getElem?_eq_getElem i.isLt)

variable {i : Fin route.swaps.length}

private theorem eq_leg_of_exclusive (only : route.swaps.filter isExclusiveLeg = [leg])
    (exclusive : isExclusiveLeg (route.swaps.get i) = true) : route.swaps.get i = leg := by
  rw [← mem_singleton, ← only]
  exact mem_filter.mpr ⟨get_mem _ i, exclusive⟩

private theorem feeCharged_of_not_exclusive {swap : Swap P}
    (plain : ¬ isExclusiveLeg swap = true) (gross : ℚ) : feeCharged swap gross = 0 := if_neg plain

private theorem paid_of_not_exclusive (run : Executes pool supply route.swaps paid)
    (plain : ¬ isExclusiveLeg (route.swaps.get i) = true) :
    paid i = pool i ((swapNetwork route.swaps supply).received paid i) := by
  rw [run i, Network.advance, feeCharged_of_not_exclusive plain, sub_zero]

variable (only : route.swaps.filter isExclusiveLeg = [leg]) (acyclic : Acyclic route.swaps)
  (quoted : QuotedBy pool route.swaps) (run : Executes pool supply route.swaps paid)

include only acyclic quoted run

/-- Nothing changes before the exclusive leg, so its pool gives what was quoted. -/
theorem paid_exclusive (exclusive : isExclusiveLeg (route.swaps.get i) = true) :
    (swapNetwork route.swaps supply).share paid leg.tokenIn = 1 ∧
      paid i = leg.amountOut - feeCharged leg leg.amountOut := by
  obtain ⟨rank, ranked⟩ := acyclic.exists_rank
  have same := eq_leg_of_exclusive only exclusive
  have whole : (swapNetwork route.swaps supply).share paid leg.tokenIn = 1 := by
    refine Network.share_eq_one_of_below (swapNetwork_ranked supply ranked) run
      (fun j lower => ?_) _ (le_refl (rank leg.tokenIn))
    have plain : ¬ isExclusiveLeg (route.swaps.get j) = true := by
      intro alsoExclusive
      have equal := eq_leg_of_exclusive only alsoExclusive
      change rank (route.swaps.get j).tokenIn < rank leg.tokenIn at lower
      rw [equal] at lower
      exact lower.false
    change pool j (route.swaps.get j).amountIn - feeCharged _ _ =
      ((route.swaps.get j).amountOut : ℚ)
    rw [feeCharged_of_not_exclusive plain, sub_zero, quotedBy_get quoted]
  refine ⟨whole, ?_⟩
  have received : (swapNetwork route.swaps supply).received paid i =
      (route.swaps.get i).amountIn := by
    change ((route.swaps.get i).amountIn : ℚ) *
      (swapNetwork route.swaps supply).share paid (route.swaps.get i).tokenIn = _
    rw [same, whole, mul_one]
  rw [run i, Network.advance, received, quotedBy_get quoted, same]

variable (commits : leg.committedAmountOut = some committed) (within : committed ≤ leg.amountOut)
  (lawful : ∀ i, Converter (pool i))

include commits within

omit acyclic quoted run in
private theorem fee_of_leg : feeCharged leg leg.amountOut ≤ leg.amountOut - committed := by
  have exclusive : isExclusiveLeg leg = true := (mem_filter.mp (only ▸ mem_singleton_self leg)).2
  unfold feeCharged
  rw [if_pos exclusive, commits, Option.elim_some]
  exact fee_le_of_committed within

private theorem committed_le_paid (exclusive : isExclusiveLeg (route.swaps.get i) = true) :
    (committed : ℚ) ≤ paid i := by
  rw [(paid_exclusive only acyclic quoted run exclusive).2]
  linarith [fee_of_leg only commits within]

include lawful

private theorem paid_bounds (i : Fin route.swaps.length) :
    0 ≤ paid i ∧ paid i ≤ (route.swaps.get i).amountOut := by
  obtain ⟨rank, ranked⟩ := acyclic.exists_rank
  refine Network.flow_bounds (swapNetwork_ranked supply ranked) (fun j nonneg small => ?_) i
  change 0 ≤ paid j ∧ paid j ≤ ((route.swaps.get j).amountOut : ℚ)
  by_cases exclusive : isExclusiveLeg (route.swaps.get j) = true
  · rw [eq_leg_of_exclusive only exclusive, (paid_exclusive only acyclic quoted run exclusive).2]
    have charged := fee_of_leg only commits within
    have free : 0 ≤ feeCharged leg leg.amountOut := feeCharged_nonneg leg (Nat.cast_nonneg _)
    have least : (0 : ℚ) ≤ committed := Nat.cast_nonneg _
    exact ⟨by linarith, by linarith⟩
  · have amount : (0 : ℚ) ≤ (route.swaps.get j).amountIn := Nat.cast_nonneg _
    have received : 0 ≤ (swapNetwork route.swaps supply).received paid j := mul_nonneg amount nonneg
    rw [paid_of_not_exclusive run exclusive]
    refine ⟨(lawful j).nonneg _ received, ?_⟩
    rw [← quotedBy_get quoted j]
    exact (lawful j).mono _ _ received (mul_le_of_le_one_right amount small)

private theorem part_le_paid (i : Fin route.swaps.length) :
    let network := swapNetwork route.swaps supply
    network.given i * network.share paid (network.source i) ≤
      paid i + feeCharged (route.swaps.get i) (route.swaps.get i).amountOut := by
  intro network
  change ((route.swaps.get i).amountOut : ℚ) * network.share paid (route.swaps.get i).tokenIn ≤ _
  by_cases exclusive : isExclusiveLeg (route.swaps.get i) = true
  · obtain ⟨whole, pays⟩ := paid_exclusive only acyclic quoted run exclusive
    rw [pays, eq_leg_of_exclusive only exclusive, whole]
    linarith
  · have bounds := paid_bounds only acyclic quoted run commits within lawful
    have nonneg : 0 ≤ network.share paid (route.swaps.get i).tokenIn :=
      Network.share_nonneg fun j _ => (bounds j).1
    have small : network.share paid (route.swaps.get i).tokenIn ≤ 1 :=
      Network.share_le_one fun j _ => (bounds j).2
    rw [feeCharged_of_not_exclusive exclusive, add_zero, paid_of_not_exclusive run exclusive,
      ← quotedBy_get quoted i, mul_comm]
    unfold Network.received
    rw [mul_comm (network.taken i)]
    exact (lawful i).part _ _ nonneg small (Nat.cast_nonneg _)

private theorem amountOut_le_paid (balanced : Balanced route supply outputToken) {surplus : ℚ}
    (worth : (leg.amountOut - committed) * tokenPrice route.swaps outputToken leg.tokenOut ≤
      surplus) :
    (route.amountOut outputToken : ℚ) ≤
      (swapNetwork route.swaps supply).inflow paid outputToken + surplus := by
  obtain ⟨rank, ranked⟩ := acyclic.exists_rank
  have priced := swapNetwork_priced balanced acyclic
  have loss := Network.inflow_sink_le (swapNetwork_ranked supply ranked) priced
    (fun i => (paid_bounds only acyclic quoted run commits within lawful i).2)
    (part_le_paid only acyclic quoted run commits within lawful)
  have tolls : ∑ i, feeCharged (route.swaps.get i) (route.swaps.get i).amountOut *
      tokenPrice route.swaps outputToken (route.swaps.get i).tokenOut =
        feeCharged leg leg.amountOut * tokenPrice route.swaps outputToken leg.tokenOut := by
    let toll : Swap P → ℚ := fun swap =>
      feeCharged swap swap.amountOut * tokenPrice route.swaps outputToken swap.tokenOut
    have chosen := sum_get_filter route.swaps (fun swap => isExclusiveLeg swap = true) toll
    rw [Finset.sum_filter_of_ne] at chosen
    · simpa [only, toll] using chosen
    · intro i _ charged
      by_contra plain
      exact charged (by simp only [toll, feeCharged_of_not_exclusive plain, zero_mul])
  rw [inflow_given] at loss
  have fee := fee_of_leg only commits within
  have priceNonneg := priced.nonneg leg.tokenOut
  calc
    (route.amountOut outputToken : ℚ) ≤ (swapNetwork route.swaps supply).inflow paid outputToken +
        feeCharged leg leg.amountOut * tokenPrice route.swaps outputToken leg.tokenOut := by
      rw [← tolls]
      exact loss
    _ ≤ (swapNetwork route.swaps supply).inflow paid outputToken +
        (leg.amountOut - committed) * tokenPrice route.swaps outputToken leg.tokenOut := by
      gcongr
    _ ≤ _ := by gcongr

end Running

/-! ## Pinned routes -/

section Pinned

variable {route : Route P} {supply : Address → Nat} {outputToken : Address}

/-- A swap before it was pinned. -/
def Swap.uncommitted (swap : Swap P) : Swap P :=
  { swap with committedAmountOut := none }

/-- A list of swaps before they were pinned. -/
def uncommitted (swaps : List (Swap P)) : List (Swap P) :=
  swaps.map Swap.uncommitted

private theorem uncommitted_of_pinned {swaps rest pinned : List (Swap P)} {surplus : Nat}
    (done : pinSwaps swaps (some outputToken) surplus rest = some pinned) :
    uncommitted pinned = uncommitted rest := by
  have steps := pinSwaps_forall₂ done
  clear done
  induction steps with
  | nil => rfl
  | @cons swap after _ _ here _ ih =>
    obtain ⟨before, left, _, step⟩ := here
    have head : after.uncommitted = swap.uncommitted := by
      rw [(pinSwap_eq_some step).1]
      rfl
    exact congrArg₂ List.cons head ih

variable (swaps : List (Swap P))

private theorem totalAmountInForToken_uncommitted (token : Address) :
    totalAmountInForToken (uncommitted swaps) token = totalAmountInForToken swaps token := by
  unfold totalAmountInForToken uncommitted
  rw [filter_map, map_map]
  rfl

private theorem amountOut_uncommitted (route : Route P) (token : Address) :
    { route with swaps := uncommitted swaps }.amountOut token =
      { route with swaps := swaps }.amountOut token := by
  unfold Route.amountOut uncommitted
  rw [filter_map, map_map]
  rfl

private theorem tokenRouteOutputIn_uncommitted (depth : Nat) (path : List Address)
    (token : Address) :
    tokenRouteOutputIn (uncommitted swaps) outputToken depth path token =
      tokenRouteOutputIn swaps outputToken depth path token := by
  induction depth generalizing path token with
  | zero => rfl
  | succ depth ih =>
    unfold tokenRouteOutputIn
    simp only [ih, totalAmountInForToken_uncommitted]
    unfold uncommitted
    rw [filter_map, foldlM_map]
    rfl

private theorem tokenPrice_uncommitted (token : Address) :
    tokenPrice (uncommitted swaps) outputToken token = tokenPrice swaps outputToken token := by
  unfold tokenPrice tokenRouteOutput
  rw [totalAmountInForToken_uncommitted, tokenRouteOutputIn_uncommitted]
  unfold uncommitted
  rw [length_map]

private theorem acyclic_uncommitted : Acyclic (uncommitted swaps) ↔ Acyclic swaps := by
  have same : Leads (uncommitted swaps) = Leads swaps := by
    funext tokenIn tokenOut
    apply propext
    constructor
    · rintro ⟨_, member, leaves, ends⟩
      obtain ⟨swap, inside, rfl⟩ := mem_map.mp member
      exact ⟨swap, inside, leaves, ends⟩
    · rintro ⟨swap, inside, leaves, ends⟩
      exact ⟨swap.uncommitted, mem_map_of_mem inside, leaves, ends⟩
  unfold Acyclic
  rw [same]

private theorem filter_uncommitted :
    (uncommitted swaps).filter isExclusiveLeg = uncommitted (swaps.filter isExclusiveLeg) :=
  filter_map

private theorem quotedBy_uncommitted {pool : Nat → ℚ → ℚ} :
    QuotedBy pool (uncommitted swaps) ↔ QuotedBy pool swaps := by
  unfold QuotedBy uncommitted
  simp only [getElem?_map, Option.map_eq_some_iff]
  constructor
  · intro quoted i swap found
    exact quoted i swap.uncommitted ⟨swap, found, rfl⟩
  · rintro quoted i _ ⟨swap, found, rfl⟩
    exact quoted i swap found

private theorem captured_worth {amountOut numerator denominator : Nat} {price : ℚ}
    (reaches : 0 < numerator) (positive : 0 < denominator)
    (value : (numerator / denominator : ℚ) = amountOut * price) (surplus : Nat) :
    ((min surplus (numerator / denominator) * amountOut * denominator / numerator : ℕ) : ℚ) *
      price ≤ surplus := by
  set captured := min surplus (numerator / denominator)
  set cost := captured * amountOut * denominator / numerator
  have rounded : cost * numerator ≤ captured * amountOut * denominator := Nat.div_mul_le_self _ _
  have divisor : (0 : ℚ) < denominator := Nat.cast_pos.mpr positive
  have expanded : (numerator : ℚ) = amountOut * price * denominator :=
    (div_eq_iff divisor.ne').mp value
  have worth : (0 : ℚ) < amountOut := by
    rcases Nat.eq_zero_or_pos amountOut with zero | pays
    · rw [zero, Nat.cast_zero, zero_mul, zero_mul] at expanded
      exact absurd (Nat.cast_eq_zero.mp expanded) reaches.ne'
    · exact Nat.cast_pos.mpr pays
  have scaled : (cost : ℚ) * price * (amountOut * denominator) ≤
      captured * (amountOut * denominator) := by
    calc
      (cost : ℚ) * price * (amountOut * denominator) = cost * numerator := by
        rw [expanded]
        ring
      _ ≤ captured * amountOut * denominator := by exact_mod_cast rounded
      _ = captured * (amountOut * denominator) := by ring
  calc
    (cost : ℚ) * price ≤ captured := le_of_mul_le_mul_right scaled (mul_pos worth divisor)
    _ ≤ surplus := Nat.cast_le.mpr (Nat.min_le_left _ _)

/-- The exclusive leg of a pinned route, with its committed amount. -/
theorem exists_pinned_leg {pinned : List (Swap P)} {surplus : Nat}
    (balanced : Balanced route supply outputToken)
    (valid : exclusiveRouteShape route.swaps outputToken = .valid)
    (pins : pinSwaps route.swaps (some outputToken) surplus route.swaps = some pinned) :
    ∃ leg committed, pinned.filter isExclusiveLeg = [leg] ∧
      leg.committedAmountOut = some committed ∧ committed ≤ leg.amountOut ∧
      ((leg.amountOut : ℚ) - committed) * tokenPrice route.swaps outputToken leg.tokenOut ≤
        surplus := by
  obtain ⟨leg, numerator, denominator, only, found, reaches⟩ := exists_leg_of_valid valid
  have inRoute : leg ∈ route.swaps := mem_of_mem_filter (only ▸ mem_singleton_self leg)
  have exclusive : isExclusiveLeg leg = true := (mem_filter.mp (only ▸ mem_singleton_self leg)).2
  have single : uncommitted (pinned.filter isExclusiveLeg) = [leg.uncommitted] := by
    rw [← filter_uncommitted, uncommitted_of_pinned pins, filter_uncommitted, only]
    rfl
  obtain ⟨after, onlyAfter, _⟩ := map_eq_singleton_iff.mp single
  have member : after ∈ pinned := mem_of_mem_filter (onlyAfter ▸ mem_singleton_self after)
  obtain ⟨swap, inside, before, left, small, step⟩ :=
    exists_of_forall₂_right (pinSwaps_forall₂ pins) member
  obtain ⟨shape, _, commits⟩ := pinSwap_eq_some step
  have through : isExclusiveLeg swap = true := by
    have afterExclusive := (mem_filter.mp (onlyAfter ▸ mem_singleton_self after)).2
    rw [shape] at afterExclusive
    exact afterExclusive
  obtain rfl : swap = leg := by
    rw [← mem_singleton, ← only]
    exact mem_filter.mpr ⟨inside, through⟩
  obtain ⟨positive, value⟩ := legRouteOutput_value balanced inRoute found reaches
  have worth := captured_worth reaches positive value before
  have amount : after.amountOut = swap.amountOut := by rw [shape]
  have ending : after.tokenOut = swap.tokenOut := by rw [shape]
  refine ⟨after, _, onlyAfter, (commits numerator denominator exclusive found reaches).2, ?_, ?_⟩
  · rw [amount]
    exact Nat.sub_le _ _
  · rw [amount, ending, Nat.cast_sub (captured_le before), sub_sub_cancel]
    exact worth.trans (Nat.cast_le.mpr small)

/-- **A pinned route pays its commitment.** The exclusive leg of a balanced route without cycles can
be pinned to every commitment up to the route's output. Over pools that give no less than in
proportion, the pinned route can be executed, and every execution pays at least the committed amount
at the leg and at least the commitment in all. -/
theorem pinned_route_pays_commitment {candidate : OrderQuote P} {pool : Nat → ℚ → ℚ}
    {committed : Nat} (routed : candidate.route = some route)
    (ends : route.outputToken = some outputToken)
    (output : candidate.amountOut = route.amountOut outputToken)
    (valid : exclusiveRouteShape route.swaps outputToken = .valid) (acyclic : Acyclic route.swaps)
    (balanced : Balanced route supply outputToken) (lawful : ∀ i, Converter (pool i))
    (quoted : QuotedBy pool route.swaps) (within : committed ≤ candidate.amountOut) :
    ∃ pinned, pinRoute (candidate.amountOut - committed) candidate.route = some (some pinned) ∧
      (candidate.amountOutNetGas ≤ candidate.amountOut →
        candidate.amountOut - candidate.amountOutNetGas ≤ committed →
          (pinCommitment candidate committed).isSome = true) ∧
      (∀ quote, pinCommitment candidate committed = some quote → quote.route = some pinned) ∧
      (∃ paid, Executes pool supply pinned.swaps paid) ∧
      ∀ paid, Executes pool supply pinned.swaps paid →
        (∀ i, isExclusiveLeg (pinned.swaps.get i) = true →
          ∃ least, (pinned.swaps.get i).committedAmountOut = some least ∧ (least : ℚ) ≤ paid i) ∧
        (committed : ℚ) ≤ ∑ i with (pinned.swaps.get i).tokenOut = outputToken, paid i := by
  have pinnable := pinSwaps_isSome (candidate.amountOut - committed)
    fun leg member _ _ _ found reaches => (legRouteOutput_value balanced member found reaches).1
  obtain ⟨swaps, pins⟩ := Option.isSome_iff_exists.mp pinnable
  have same := uncommitted_of_pinned pins
  obtain ⟨leg, least, only, commits, small, worth⟩ := exists_pinned_leg balanced valid pins
  -- the pinned route takes and gives the same amounts between the same tokens
  have acyclicPinned : Acyclic swaps := by
    rw [← acyclic_uncommitted, same, acyclic_uncommitted]
    exact acyclic
  have quotedPinned : QuotedBy pool swaps := by
    rw [← quotedBy_uncommitted, same, quotedBy_uncommitted]
    exact quoted
  have amountPinned : ∀ token, { route with swaps := swaps }.amountOut token =
      route.amountOut token := by
    intro token
    rw [← amountOut_uncommitted, same, amountOut_uncommitted]
  have balancedPinned : Balanced { route with swaps := swaps } supply outputToken := by
    intro token earlier
    rw [amountPinned, ← balanced token earlier, ← totalAmountInForToken_uncommitted, same,
      totalAmountInForToken_uncommitted]
  rw [← tokenPrice_uncommitted, ← same, tokenPrice_uncommitted] at worth
  obtain ⟨rank, ranked⟩ := acyclicPinned.exists_rank
  refine ⟨{ route with swaps := swaps }, ?_, pinCommitment_isSome routed (ends ▸ pinnable) within,
    fun quote done => ?_, Network.exists_settles (swapNetwork_ranked supply ranked) _,
    fun paid run => ⟨fun i exclusive => ?_, ?_⟩⟩
  · rw [routed]
    change (pinSwaps _ route.outputToken _ _).map _ = _
    rw [ends, pins]
    rfl
  · obtain ⟨_, others, pinsOthers, shape⟩ := pinCommitment_eq_some done routed
    rw [ends, pins] at pinsOthers
    cases pinsOthers
    exact shape
  · refine ⟨least, ?_,
      committed_le_paid only acyclicPinned quotedPinned run commits small exclusive⟩
    rw [eq_leg_of_exclusive only exclusive]
    exact commits
  · have loss := amountOut_le_paid only acyclicPinned quotedPinned run commits small lawful
      balancedPinned worth
    rw [amountPinned, ← output, Nat.cast_sub within] at loss
    change _ ≤ (swapNetwork swaps supply).inflow paid outputToken
    linarith

end Pinned

/-! ## A split route -/

section Sample

/-- A component of the sample route. -/
def legComponent (id : ComponentId) (attributes : Map String (List UInt8)) : ProtocolComponent :=
  ⟨id, "ekubo", [0, 1, 2], attributes⟩

/-- An exclusive leg to an intermediate token, the swap after it, and a public swap beside them. -/
def splitRoute : Route Unit where
  swaps :=
    [⟨"a", "ekubo", 0, 1, 100, 200, 0, legComponent "a" (AList.insert "is_exclusive" [1] ∅), (),
        0.0, none, none⟩,
      ⟨"b", "ekubo", 1, 2, 200, 400, 0, legComponent "b" ∅, (), 0.0, none, none⟩,
      ⟨"c", "ekubo", 0, 2, 50, 90, 0, legComponent "c" ∅, (), 0.0, none, none⟩]
  tokens := ∅

/-- A quote on the split route. -/
def splitQuote : OrderQuote Unit :=
  { status := .success, route := some splitRoute, amountIn := 150, amountOut := 490
    gasEstimate := 0, amountOutNetGas := 480, sender := [], receiver := [] }

/-- The pools of the split route give in proportion. -/
def splitPool (i : Nat) (amount : ℚ) : ℚ := (if i = 2 then 9 / 5 else 2) * amount

/-- The user brings the input of the split route. -/
def splitSupply (token : Address) : Nat := if token = 0 then 150 else 0

private theorem splitPool_lawful (i : Nat) : Converter (splitPool i) := by
  have rate : (0 : ℚ) ≤ if i = 2 then 9 / 5 else 2 := by
    split <;> norm_num
  refine ⟨fun amount nonneg => mul_nonneg rate nonneg,
    fun less more _ le => mul_le_mul_of_nonneg_left le rate, fun part amount _ _ _ => ?_⟩
  unfold splitPool
  apply le_of_eq
  ring

/-- The split route is pinned to an output of 450, and every execution pays it. -/
theorem split_route_pays_commitment :
    ∃ pinned, pinRoute 40 (some splitRoute) = some (some pinned) ∧
      (∃ paid, Executes splitPool splitSupply pinned.swaps paid) ∧
      ∀ paid, Executes splitPool splitSupply pinned.swaps paid →
        (450 : ℚ) ≤ ∑ i with (pinned.swaps.get i).tokenOut = 2, paid i := by
  have acyclic : Acyclic splitRoute.swaps := by
    refine acyclic_of_rank id ?_
    rintro _ _ ⟨swap, member, rfl, rfl⟩
    have climbs : ∀ swap ∈ splitRoute.swaps, id swap.tokenIn < id swap.tokenOut := by
      decide +kernel
    exact climbs swap member
  have balanced : Balanced splitRoute splitSupply 2 := by
    intro token earlier
    match token with
    | 0 | 1 => decide +kernel
    | 2 => exact absurd rfl earlier
    | token + 3 =>
      simp [totalAmountInForToken, Route.amountOut, splitRoute, splitSupply]
  have quoted : QuotedBy splitPool splitRoute.swaps := by
    intro i swap found
    match i with
    | 0 | 1 | 2 =>
      cases found
      norm_num [splitPool]
    | i + 3 => cases found
  have routed : splitQuote.route = some splitRoute := rfl
  have within : 450 ≤ splitQuote.amountOut := by decide
  obtain ⟨pinned, pins, _, _, runs, pays⟩ := pinned_route_pays_commitment routed rfl
    (by decide +kernel) (by decide +kernel) acyclic balanced splitPool_lawful quoted within
  refine ⟨pinned, pins, runs, fun paid run => ?_⟩
  exact_mod_cast (pays paid run).2

end Sample

end Fynd
