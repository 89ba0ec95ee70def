import Fynd.Encoding.Encoder

/-!
# Fee arithmetic

The router's fee, the client's portion, the slippage and the floor come from nested floor divisions
that are subtracted from one another. They sum to the output and no subtraction goes below zero,
unless the sum of the two fee rates leaves its machine word: then it wraps around the check against
the whole.
-/

namespace Fynd

open Foundation

variable {F : Type} [Double F]

namespace FeeRates

/-- The rates have the widths of their types. -/
structure Fits (rates : FeeRates) : Prop where
  onOutput : rates.onOutput < 2 ^ 32
  onClientFee : rates.onClientFee < 2 ^ 32
  maxFeeUnits : rates.maxFeeUnits < 2 ^ 64

/-- The client fee in fee units, as a number. -/
def scaledClientFee (rates : FeeRates) (bps : Nat) : Nat := bps * rates.feeUnitsPerBps

/-- The fees leave nothing of the output, or the router takes more than the client's fee. -/
def TooHigh (rates : FeeRates) (bps : Nat) : Prop :=
  rates.maxFeeUnits ≤ rates.scaledClientFee bps + rates.onOutput ∨
    rates.maxFeeUnits < rates.onClientFee

/-- The router's share of the client fee. -/
def clientFeeShare (rates : FeeRates) (swapOutput bps : Nat) : Nat :=
  swapOutput * rates.scaledClientFee bps * rates.onClientFee / rates.maxFeeUnits ^ 2

end FeeRates

/-- A breakdown splits the output without loss. The client's portion and the router's share of it
are the client fee, and the router takes that share and its fee on the output. -/
structure FeeBreakdown.Exact (swapOutput clientFeeBps : Nat) (rates : FeeRates)
    (breakdown : FeeBreakdown) : Prop where
  total : breakdown.routerFee + breakdown.clientFee + breakdown.maxSlippage +
    breakdown.minAmountReceived = swapOutput
  client : breakdown.clientFee + rates.clientFeeShare swapOutput clientFeeBps =
    swapOutput * rates.scaledClientFee clientFeeBps / rates.maxFeeUnits
  router : breakdown.routerFee = rates.clientFeeShare swapOutput clientFeeBps +
    swapOutput * rates.onOutput / rates.maxFeeUnits

/-- The fees are refused exactly if they are too high, and are exact otherwise. -/
structure FeesExact (swapOutput clientFeeBps : Nat) (slippage : F) (rates : FeeRates) : Prop where
  refuses : (∃ message, calculateFeeBreakdown swapOutput clientFeeBps slippage rates =
    .error (.failedEncoding message)) ↔ rates.TooHigh clientFeeBps
  splits : ¬rates.TooHigh clientFeeBps →
    ∃ breakdown, calculateFeeBreakdown swapOutput clientFeeBps slippage rates = .ok breakdown ∧
      breakdown.Exact swapOutput clientFeeBps rates

section Floors

variable {rates : FeeRates} {swapOutput clientFeeBps : Nat}

private theorem scaledClientFee_le (share : clientFeeBps ≤ 10000) :
    rates.scaledClientFee clientFeeBps ≤ rates.maxFeeUnits := by
  calc clientFeeBps * (rates.maxFeeUnits / 10000)
      ≤ 10000 * (rates.maxFeeUnits / 10000) := Nat.mul_le_mul_right _ share
    _ ≤ rates.maxFeeUnits := Nat.mul_div_le _ _

private theorem clientFeeUnits_eq (fits : rates.Fits) (share : clientFeeBps ≤ 10000) :
    rates.clientFeeUnits clientFeeBps = rates.scaledClientFee clientFeeBps :=
  Nat.mod_eq_of_lt ((scaledClientFee_le share).trans_lt fits.maxFeeUnits)

private theorem clientFeeShare_le (portion : rates.onClientFee ≤ rates.maxFeeUnits)
    (some : 0 < rates.maxFeeUnits) :
    rates.clientFeeShare swapOutput clientFeeBps ≤
      swapOutput * rates.scaledClientFee clientFeeBps / rates.maxFeeUnits := by
  calc rates.clientFeeShare swapOutput clientFeeBps
      ≤ swapOutput * rates.scaledClientFee clientFeeBps * rates.maxFeeUnits /
          (rates.maxFeeUnits * rates.maxFeeUnits) := by
        rw [FeeRates.clientFeeShare, Nat.pow_two]
        exact Nat.div_le_div_right (Nat.mul_le_mul_left _ portion)
    _ = swapOutput * rates.scaledClientFee clientFeeBps / rates.maxFeeUnits :=
        Nat.mul_div_mul_right _ _ some

private theorem fees_le_output (below : rates.scaledClientFee clientFeeBps + rates.onOutput <
    rates.maxFeeUnits) :
    swapOutput * rates.scaledClientFee clientFeeBps / rates.maxFeeUnits +
      swapOutput * rates.onOutput / rates.maxFeeUnits ≤ swapOutput := by
  calc swapOutput * rates.scaledClientFee clientFeeBps / rates.maxFeeUnits +
        swapOutput * rates.onOutput / rates.maxFeeUnits
      ≤ (swapOutput * rates.scaledClientFee clientFeeBps + swapOutput * rates.onOutput) /
          rates.maxFeeUnits := Nat.div_add_div_le_add_div
    _ = swapOutput * (rates.scaledClientFee clientFeeBps + rates.onOutput) /
          rates.maxFeeUnits := by rw [Nat.mul_add]
    _ ≤ swapOutput := Nat.div_le_of_le_mul (by
        rw [Nat.mul_comm]
        exact Nat.mul_le_mul_right _ below.le)

end Floors

private theorem subOrPanic_of_le {left right : Nat} (enough : right ≤ left) :
    subOrPanic left right = .ok (left - right) := by
  simp [subOrPanic, checkedSub, enough]

private theorem subOrPanic_ne_failedEncoding {left right : Nat} {message : String} :
    subOrPanic left right ≠ .error (.failedEncoding message) := by
  unfold subOrPanic checkedSub
  split_ifs <;> simp

section Breakdown

variable {rates : FeeRates} {swapOutput clientFeeBps : Nat} {slippage : F}

section

variable (fits : rates.Fits) (share : clientFeeBps ≤ 10000)
  (word : rates.scaledClientFee clientFeeBps + rates.onOutput < 2 ^ 64)
include fits share word

/-- Fees whose rates sum within the word and are not too high. -/
theorem calculateFees_of_not_tooHigh (low : ¬rates.TooHigh clientFeeBps) :
    calculateFees swapOutput clientFeeBps rates =
      .ok (rates.clientFeeShare swapOutput clientFeeBps +
          swapOutput * rates.onOutput / rates.maxFeeUnits,
        swapOutput * rates.scaledClientFee clientFeeBps / rates.maxFeeUnits -
          rates.clientFeeShare swapOutput clientFeeBps) := by
  unfold FeeRates.TooHigh at low
  push Not at low
  obtain ⟨below, portion⟩ := low
  unfold calculateFees
  rw [clientFeeUnits_eq fits share]
  simp only [Nat.mod_eq_of_lt word, ge_iff_le, Nat.not_le.mpr below, if_false, gt_iff_lt,
    Nat.not_lt.mpr portion]
  by_cases charged : 0 < rates.scaledClientFee clientFeeBps
  · have less := @clientFeeShare_le rates swapOutput clientFeeBps portion (by omega)
    simp only [charged, if_true]
    rw [FeeRates.clientFeeShare] at less ⊢
    rw [subOrPanic_of_le less]
    rfl
  · have none : rates.scaledClientFee clientFeeBps = 0 := by omega
    simp only [FeeRates.clientFeeShare, none, Nat.mul_zero, Nat.zero_mul, Nat.zero_div]
    rfl

private theorem calculateFees_of_tooHigh (high : rates.TooHigh clientFeeBps) :
    ∃ message, calculateFees swapOutput clientFeeBps rates = .error (.failedEncoding message) := by
  unfold calculateFees
  rw [clientFeeUnits_eq fits share]
  simp only [Nat.mod_eq_of_lt word]
  by_cases whole : rates.maxFeeUnits ≤ rates.scaledClientFee clientFeeBps + rates.onOutput
  · rw [if_pos whole]
    exact ⟨_, rfl⟩
  · rw [if_neg whole, if_pos (high.resolve_left whole)]
    exact ⟨_, rfl⟩

end

private theorem calculateFees_of_wrapped (fits : rates.Fits) (share : clientFeeBps ≤ 10000)
    (wrapped : 2 ^ 64 ≤ rates.scaledClientFee clientFeeBps + rates.onOutput) {message : String} :
    calculateFees swapOutput clientFeeBps rates ≠ .error (.failedEncoding message) := by
  have onOutput := fits.onOutput
  have onClientFee := fits.onClientFee
  have maxFeeUnits := fits.maxFeeUnits
  have scaled := @scaledClientFee_le rates clientFeeBps share
  have small : ¬(rates.scaledClientFee clientFeeBps + rates.onOutput) % 2 ^ 64 ≥
      rates.maxFeeUnits := by omega
  have portion : ¬rates.onClientFee > rates.maxFeeUnits := by omega
  unfold calculateFees
  rw [clientFeeUnits_eq fits share]
  simp only [small, portion, if_false]
  intro refused
  split_ifs at refused
  · obtain failed | ⟨portion, -, done⟩ := bind_eq_error_iff.mp refused
    · exact subOrPanic_ne_failedEncoding failed
    · exact nomatch done
  · exact nomatch refused

private theorem calculateFeeBreakdown_eq_failedEncoding_iff {message : String} :
    calculateFeeBreakdown swapOutput clientFeeBps slippage rates =
        .error (.failedEncoding message) ↔
      calculateFees swapOutput clientFeeBps rates = .error (.failedEncoding message) := by
  unfold calculateFeeBreakdown
  refine bind_eq_error_iff.trans (or_iff_left ?_)
  rintro ⟨fees, -, refused⟩
  obtain failed | ⟨afterClient, -, refused⟩ := bind_eq_error_iff.mp refused
  · exact subOrPanic_ne_failedEncoding failed
  · obtain failed | ⟨afterFees, -, refused⟩ := bind_eq_error_iff.mp refused
    · exact subOrPanic_ne_failedEncoding failed
    · obtain failed | ⟨floor, -, done⟩ := bind_eq_error_iff.mp refused
      · exact subOrPanic_ne_failedEncoding failed
      · exact nomatch done

/-- Fees that are not too high leave an amount, and the slippage is a part of it. -/
theorem calculateFeeBreakdown_of_not_tooHigh (fits : rates.Fits) (share : clientFeeBps ≤ 10000)
    (tolerance : Double.toU64 (Double.mul slippage (Double.ofNat 1000000)) ≤ 1000000)
    (word : rates.scaledClientFee clientFeeBps + rates.onOutput < 2 ^ 64)
    (low : ¬rates.TooHigh clientFeeBps) :
    ∃ breakdown, calculateFeeBreakdown swapOutput clientFeeBps slippage rates = .ok breakdown ∧
      breakdown.Exact swapOutput clientFeeBps rates := by
  have fees := @calculateFees_of_not_tooHigh rates swapOutput clientFeeBps fits share word low
  unfold FeeRates.TooHigh at low
  push Not at low
  have client := @clientFeeShare_le rates swapOutput clientFeeBps low.2 (by omega)
  have output := @fees_le_output rates swapOutput clientFeeBps low.1
  generalize isTotal : swapOutput * rates.scaledClientFee clientFeeBps / rates.maxFeeUnits = total
    at fees client output
  generalize isOnOutput : swapOutput * rates.onOutput / rates.maxFeeUnits = onOutput at fees output
  generalize isShare : rates.clientFeeShare swapOutput clientFeeBps = routerShare at fees client
  have afterFees : swapOutput - (total - routerShare) - (routerShare + onOutput) =
      swapOutput - total - onOutput := by omega
  obtain ⟨slipped, isSlipped, within⟩ : ∃ slipped, (swapOutput - total - onOutput) *
      Double.toU64 (Double.mul slippage (Double.ofNat 1000000)) / 1000000 = slipped ∧
        slipped ≤ swapOutput - total - onOutput := by
    refine ⟨_, rfl, Nat.div_le_of_le_mul ?_⟩
    rw [Nat.mul_comm 1000000]
    exact Nat.mul_le_mul_left _ tolerance
  have built : calculateFeeBreakdown swapOutput clientFeeBps slippage rates =
      .ok { routerFee := routerShare + onOutput, clientFee := total - routerShare
            maxSlippage := slipped
            minAmountReceived := swapOutput - total - onOutput - slipped } := by
    unfold calculateFeeBreakdown
    rw [fees]
    simp only [bind, Except.bind]
    rw [subOrPanic_of_le (by omega)]
    dsimp only
    rw [subOrPanic_of_le (by omega), afterFees]
    dsimp only
    rw [isSlipped, subOrPanic_of_le within]
    rfl
  refine ⟨_, built, ?_, ?_, ?_⟩
  · dsimp only
    omega
  · dsimp only
    rw [isShare, isTotal]
    omega
  · rw [isShare, isOnOutput]

/-- **Fee arithmetic is exact as long as the rates sum within their word.** -/
theorem feesExact_iff_sum_fits (fits : rates.Fits) (share : clientFeeBps ≤ 10000)
    (tolerance : Double.toU64 (Double.mul slippage (Double.ofNat 1000000)) ≤ 1000000) :
    FeesExact swapOutput clientFeeBps slippage rates ↔
      rates.scaledClientFee clientFeeBps + rates.onOutput < 2 ^ 64 := by
  constructor
  · intro exact
    by_contra wrapped
    have maxFeeUnits := fits.maxFeeUnits
    have high : rates.TooHigh clientFeeBps := .inl (by omega)
    obtain ⟨message, refused⟩ := exact.refuses.mpr high
    exact calculateFees_of_wrapped fits share (Nat.not_lt.mp wrapped)
      (calculateFeeBreakdown_eq_failedEncoding_iff.mp refused)
  · intro word
    refine ⟨⟨?_, ?_⟩, calculateFeeBreakdown_of_not_tooHigh fits share tolerance word⟩
    · rintro ⟨message, refused⟩
      by_contra low
      rw [calculateFeeBreakdown_eq_failedEncoding_iff,
        calculateFees_of_not_tooHigh fits share word low] at refused
      exact nomatch refused
    · intro high
      obtain ⟨message, refused⟩ :=
        @calculateFees_of_tooHigh rates swapOutput clientFeeBps fits share word high
      exact ⟨message, calculateFeeBreakdown_eq_failedEncoding_iff.mpr refused⟩

/-- The fallback fee on output, a client fee of one percent of which the router takes a fifth, and
half a percent of slippage. -/
theorem fees_exact_at_one_percent :
    FeesExact 1000000 100 (1 / 200 : ℚ) ⟨1000, 20000000, 100000000⟩ :=
  (feesExact_iff_sum_fits ⟨by decide, by decide, by decide⟩ (by decide) (by decide +kernel)).mpr
    (by decide)

/-- **A sum that wraps around.** A client fee of the whole output and a router fee reach more than
the whole, but their sum leaves the word and the check lets it pass. -/
theorem wrapped_sum_passes :
    ¬FeesExact 18446744073709551615 10000 (0 : ℚ) ⟨2000, 0, 18446744073709551615⟩ := by
  intro exact
  have high : (⟨2000, 0, 18446744073709551615⟩ : FeeRates).TooHigh 10000 := by
    left
    decide
  obtain ⟨message, refused⟩ := exact.refuses.mpr high
  have panics : calculateFeeBreakdown 18446744073709551615 10000 (0 : ℚ)
      ⟨2000, 0, 18446744073709551615⟩ =
        .error (.panicked "attempt to subtract with overflow") := by
    rfl
  rw [panics] at refused
  exact nomatch refused

end Breakdown

end Fynd
