import Mathlib.Tactic.Positivity
import Fynd.BellmanFord.RouteBuilding

/-!
# The rate a route is charged for its gas

A listed token is charged at its listed price. A token that is not listed is charged at the
price of the input token carried along a product of spot prices. The products that a relaxation
carries are those of walks from the input token.
-/

namespace Fynd

open Foundation

/-- A spot-price product that can carry a price along. -/
def UsableSpot (spotProduct : Float) : Prop :=
  spotProduct > 0.0 ∧ spotProduct.isFinite = true

instance (spotProduct : Float) : Decidable (UsableSpot spotProduct) :=
  inferInstanceAs (Decidable (_ ∧ _))

/-! ## Numbers and their bits -/

private theorem eq_of_toBits_eq {left right : Float} (same : left.toBits = right.toBits) :
    left = right := by
  obtain ⟨⟨leftBits, _⟩⟩ := left
  obtain ⟨⟨rightBits, _⟩⟩ := right
  obtain rfl : leftBits = rightBits := same
  rfl

private theorem zero_of_mantissa_eq_zero {bits : Nat} (small : bits < 2 ^ 64)
    (none : (if bits / 2 ^ 52 % 2 ^ 11 = 0 then bits % 2 ^ 52 * 2 else bits % 2 ^ 52 + 2 ^ 52) =
      0) : bits = 0 ∨ bits = 2 ^ 63 := by
  split at none <;> omega

private theorem integerDecode_pos {value : Float} (positive : value > 0.0) :
    (integerDecode value).1 ≠ 0 := by
  intro none
  have plusZero : (Float.ofBits 0).toBits.toNat = 0 ∧ ¬Float.ofBits 0 > 0.0 := by decide +kernel
  have minusZero : (Float.ofBits (2 ^ 63)).toBits.toNat = 2 ^ 63 ∧
      ¬Float.ofBits (2 ^ 63) > 0.0 := by decide +kernel
  rcases zero_of_mantissa_eq_zero value.toBits.toNat_lt none with bits | bits
  · have zero := eq_of_toBits_eq (UInt64.toNat_inj.mp (bits.trans plusZero.1.symm))
    exact plusZero.2 (zero ▸ positive)
  · have zero := eq_of_toBits_eq (UInt64.toNat_inj.mp (bits.trans minusZero.1.symm))
    exact minusZero.2 (zero ▸ positive)

/-! ## Listed and unlisted tokens -/

section Rates

variable {token input : Token} {prices : TokenGasPrices} {price inPrice : Price}
  {spotProduct : Float}

theorem resolveTokenPrice_of_listed (listed : prices token.address = some price)
    (spotProduct : Float) (tokenIn : Option Token) :
    resolveTokenPrice (some token) (some prices) spotProduct tokenIn = some price := by
  simp [resolveTokenPrice, listed]

/-- A token that is not listed is charged only along a usable product, and only if the input
token has a price. -/
theorem usable_of_resolveTokenPrice {tokenIn : Option Token}
    (unlisted : prices token.address = none)
    (resolved : resolveTokenPrice (some token) (some prices) spotProduct tokenIn = some price) :
    ∃ input inPrice, tokenIn = some input ∧ prices input.address = some inPrice ∧
      inPrice.numerator ≠ 0 ∧ inPrice.denominator ≠ 0 ∧ UsableSpot spotProduct := by
  cases tokenIn with
  | none => simp [resolveTokenPrice, unlisted] at resolved
  | some input =>
    cases priced : prices input.address with
    | none => simp [resolveTokenPrice, unlisted, priced] at resolved
    | some inPrice =>
      simp only [resolveTokenPrice, unlisted, priced, Option.bind_eq_bind, Option.bind_some]
        at resolved
      split at resolved
      · cases resolved
      · rename_i proper
        simp only [Bool.or_eq_true, Bool.not_eq_true', Bool.and_eq_false_iff,
          decide_eq_false_iff_not, decide_eq_true_eq, not_or, not_not,
          Bool.not_eq_false] at proper
        exact ⟨input, inPrice, rfl, priced, proper.1.2, proper.2, proper.1.1⟩

/-- Along a usable product, a token that is not listed is charged. -/
theorem exists_resolveTokenPrice (unlisted : prices token.address = none)
    (priced : prices input.address = some inPrice) (numerator : inPrice.numerator ≠ 0)
    (denominator : inPrice.denominator ≠ 0) (usable : UsableSpot spotProduct)
    (tokenDecimals : token.decimals < 2 ^ 8) (inputDecimals : input.decimals < 2 ^ 8) :
    ∃ price, resolveTokenPrice (some token) (some prices) spotProduct (some input) = some price ∧
      price.numerator ≠ 0 ∧ price.denominator ≠ 0 := by
  have mantissa := integerDecode_pos usable.1
  have proper : ¬((!(decide (spotProduct > 0.0) && spotProduct.isFinite) ||
      decide (inPrice.numerator = 0)) || decide (inPrice.denominator = 0)) = true := by
    simp [usable.1, usable.2, numerator, denominator]
  have plain : ¬(decide (token.decimals ≥ 2 ^ 8) || decide (input.decimals ≥ 2 ^ 8)) = true := by
    simp only [Bool.or_eq_true, decide_eq_true_eq]
    omega
  simp only [resolveTokenPrice, unlisted, priced, Option.bind_eq_bind, Option.bind_some]
  rw [if_neg proper, if_neg plain]
  refine ⟨_, rfl, ?_, ?_⟩
  · dsimp only
    split <;> positivity
  · dsimp only
    split <;> positivity

theorem gasCostInToken_pos {gas gasPrice : Nat} (burnt : gas ≠ 0) (paid : gasPrice ≠ 0)
    (numerator : price.numerator ≠ 0) (denominator : price.denominator ≠ 0) :
    ∃ cost, gasCostInToken gas gasPrice price = some cost ∧ cost ≠ 0 := by
  refine ⟨_, if_neg denominator, ?_⟩
  have owed : 0 < gas * gasPrice * price.numerator := by positivity
  have enough : price.denominator ≤
      gas * gasPrice * price.numerator + price.denominator - 1 := by omega
  exact (Nat.div_pos enough (Nat.pos_of_ne_zero denominator)).ne'

theorem gasCostInToken_free (gas : Nat) (price : Price) :
    (gasCostInToken gas 0 price).getD 0 = 0 := by
  unfold gasCostInToken mulDivCeil
  split
  · rfl
  · rename_i denominator
    rw [Option.getD_some, Nat.mul_zero, Nat.zero_mul, Nat.zero_add]
    exact Nat.div_eq_of_lt (by omega)

end Rates

variable {P : Type}

/-! ## The net amount of a route -/

/-- The node that stands for a token. -/
def nodeOf (nodeAddress : Map NodeIndex Address) (token : Address) : Option NodeIndex :=
  (nodeAddress.entries.find? fun entry => entry.2 = token).map Sigma.fst

/-- The rate that a route is charged for its gas. -/
def outputPrice (ctx : BellmanFordContext P) (route : Route P) (output : Address)
    (spotProduct : NodeIndex → Float) : Option Price :=
  resolveTokenPrice (route.tokens.lookup output) ctx.tokenPrices
    ((nodeOf ctx.nodeAddress output).elim 0.0 spotProduct)
    ((ctx.nodeAddress.lookup ctx.tokenInNode).bind route.tokens.lookup)

/-- A route nets its output less what its gas costs at its rate. -/
theorem computeNetAmountOut_eq_ok {ctx : BellmanFordContext P} {route : Route P}
    {output : Address} {spotProduct : NodeIndex → Float} {amountOut gasPrice : Nat}
    (ends : route.outputToken = some output) :
    computeNetAmountOut amountOut route gasPrice ctx.tokenPrices spotProduct ctx.nodeAddress
        ctx.tokenInNode =
      .ok ((amountOut : Int) - ((((outputPrice ctx route output spotProduct).bind
        (gasCostInToken route.totalGas gasPrice)).getD 0 : Nat) : Int)) := by
  obtain ⟨lastSwap, last, rfl⟩ := Option.map_eq_some_iff.mp ends
  have free (rate : Option Price) : (rate.bind (gasCostInToken route.totalGas 0)).getD 0 = 0 := by
    cases rate with
    | none => rfl
    | some price => exact gasCostInToken_free _ price
  unfold computeNetAmountOut outputPrice nodeOf
  rw [last]
  dsimp only
  by_cases zero : gasPrice = 0
  · rw [zero, if_pos rfl, free]
    simp
  · rw [if_neg zero]
    cases ctx.nodeAddress.entries.find? fun entry => entry.2 = lastSwap.tokenOut with
    | none =>
      dsimp only [Option.map_none, Option.elim_none]
      split <;> rename_i cost <;> rw [cost] <;> simp
    | some entry =>
      dsimp only [Option.map_some, Option.elim_some]
      split <;> rename_i cost <;> rw [cost] <;> simp

/-! ## The products of a relaxation -/

/-- The spot-price products of the walks from the input token to a node. A node that was not
reached has none. -/
inductive SpotProductAt (ctx : BellmanFordContext P) : NodeIndex → Float → Prop
  | unreached (node : NodeIndex) : SpotProductAt ctx node 0.0
  | source : SpotProductAt ctx ctx.tokenInNode 1.0
  | hop {source : NodeIndex} {product : Float} (target : NodeIndex) (component : ComponentId) :
      SpotProductAt ctx source product →
        SpotProductAt ctx target (computeEdgeSpotProduct product component
          (ctx.nodeAddress.lookup source) (ctx.nodeAddress.lookup target) ctx.spotPrices)

/-- Every node carries the product of some walk to it. -/
def SpotProducts (ctx : BellmanFordContext P) (spotProduct : NodeIndex → Float) : Prop :=
  ∀ node, SpotProductAt ctx node (spotProduct node)

section Products

variable [ProtocolSim P] {algorithm : BellmanFordAlgorithm}
  {ctx : BellmanFordContext P} {overrides : MarketOverrides P} {state : SpfaState}

/-- A relaxation step carries the product of the hop it writes. -/
theorem SpotProducts.step (products : SpotProducts ctx state.spotProduct) (action : SpfaStep) :
    SpotProducts ctx (state.step algorithm ctx overrides action).spotProduct := by
  cases outcome : state.accepted algorithm ctx overrides action with
  | none => rwa [(SpfaState.step_of_accepted_none outcome).2.2.2]
  | some hop =>
    rw [(SpfaState.step_of_accepted_some outcome).2.2.2]
    intro node
    by_cases written : node = hop.target
    · rw [written, Function.update_self, (SpfaState.accepted_eq_some outcome).2.2.2]
      exact .hop hop.target hop.component (products hop.source)
    · rw [Function.update_of_ne written]
      exact products node

variable (algorithm ctx overrides)

/-- **A relaxation carries products of walks.** -/
theorem spotProducts_runSpfa (amountIn : Nat) (timedOut : Nat → Bool) :
    SpotProducts ctx (runSpfa algorithm ctx overrides amountIn timedOut).1.spotProduct := by
  refine ((spfaSteps_trace amountIn timedOut).invariant
    (fun state => SpotProducts ctx state.spotProduct) ?_
    fun entry _ products => products.step entry.2).2
  intro node
  change SpotProductAt ctx node (Function.update (fun _ => 0.0) ctx.tokenInNode 1.0 node)
  by_cases begins : node = ctx.tokenInNode
  · rw [begins, Function.update_self]
    exact .source
  · rw [Function.update_of_ne begins]
    exact .unreached node

theorem amount_runSpfa_zero (timedOut : Nat → Bool) (node : NodeIndex) :
    (runSpfa algorithm ctx overrides 0 timedOut).1.amount node = 0 := by
  refine ((spfaSteps_trace 0 timedOut).invariant (fun state => ∀ node, state.amount node = 0) ?_
    fun entry member empty => ?_).2 node
  · intro node
    by_cases begins : node = ctx.tokenInNode <;> simp [initialSpfa, begins]
  · obtain ⟨state, action⟩ := entry
    cases action with
    | startRound => exact empty
    | relax source target component =>
      exact absurd (empty source) (spfaSteps_guarded 0 timedOut _ member).1

end Products

end Fynd
