import Mathlib.Algebra.BigOperators.Group.List.Basic
import Fynd.Types.Route

/-!
# Dividing amounts by fractions

A fraction is a double and an amount is an integer. A part is the amount scaled by the
fraction, to eighteen decimals and rounded down. Of several parts the last takes what is
left, so the parts always add up.
-/

namespace Fynd

open Foundation List

/-- A total split into about the given fraction of it and the rest. -/
def splitAmount (total : Nat) (fraction : Binary64) : Nat × Nat :=
  let clamped := fraction.clamp 0 1
  let scale := 10 ^ 18
  let numerator := (clamped.mul (.ofNat scale)).toU64
  let part := total * numerator / scale
  (part, total - part)

/-- Why an amount could not be divided. -/
inductive SplitMathError
  | emptyFractions
  | allZeroFractions
  | negativeFraction
  | exceedsTotal (asked total : Nat)
  deriving DecidableEq, Repr

def SplitMathError.message : SplitMathError → String
  | .emptyFractions => "fractions slice must not be empty"
  | .allZeroFractions => "all fractions are zero, cannot normalize"
  | .negativeFraction => "fractions must not be negative"
  | .exceedsTotal asked total => s!"the fractions ask for {asked} of {total}"

/-- Fractions scaled to add up to one. -/
def normalizeFractions (fractions : List Binary64) : Except SplitMathError (List Binary64) :=
  if fractions.isEmpty then .error .emptyFractions
  else if fractions.any (·.lt 0) then .error .negativeFraction
  else
    let sum := fractions.foldl Binary64.add 0
    if sum.eq 0 then .error .allZeroFractions else .ok (fractions.map (·.div sum))

/-- The amounts of a list of fractions. The last is what the others leave. -/
def fractionsToAmounts (total : Nat) (fractions : List Binary64) :
    Except SplitMathError (List Nat) :=
  if fractions.isEmpty then .error .emptyFractions
  else
    let parts := fractions.dropLast.map fun fraction => (splitAmount total fraction).1
    if parts.sum ≤ total then .ok (parts ++ [total - parts.sum])
    else .error (.exceedsTotal parts.sum total)

/-- What share of a total a part is. -/
def shareOf (part total : Nat) : Binary64 :=
  if (Binary64.ofNat total).gt 0 then (Binary64.ofNat part).div (.ofNat total) else 0

/-- Divides an output in proportion to what was put in. The last share takes the rounding. -/
def shareOutput (output : Nat) (fedAmounts : List Nat) : List Nat :=
  let total := fedAmounts.sum
  if total = 0 then List.replicate fedAmounts.length 0
  else
    let shares := fedAmounts.map fun fed => output * fed / total
    shares.dropLast ++ shares.getLast?.toList.map (· + (output - shares.sum))

section

variable {total : Nat} {fractions : List Binary64} {amounts : List Nat}
  (divided : fractionsToAmounts total fractions = .ok amounts)
include divided

/-- The amounts add up to the total, one for each fraction. -/
theorem fractionsToAmounts_eq_ok : amounts.length = fractions.length ∧ amounts.sum = total := by
  unfold fractionsToAmounts at divided
  split at divided
  · cases divided
  · rename_i nonempty
    dsimp only at divided
    split at divided
    · rename_i within
      cases divided
      have positive : 0 < fractions.length := by
        rw [length_pos_iff]
        simpa using nonempty
      refine ⟨?_, ?_⟩
      · simp only [length_append, length_map, length_dropLast, length_singleton]
        omega
      · rw [sum_append, sum_singleton]
        omega
    · cases divided

/-- Every amount but the last is its part of the total. -/
theorem fractionsToAmounts_parts :
    amounts.dropLast = fractions.dropLast.map fun fraction => (splitAmount total fraction).1 := by
  unfold fractionsToAmounts at divided
  split at divided
  · cases divided
  · dsimp only at divided
    split at divided
    · cases divided
      exact dropLast_concat
    · cases divided

end

/-! ## Balances -/

section

variable (balances : Map Address Nat)

/-- What stands at a token, which is nothing for a token that nothing has produced. -/
def balanceAt (token : Address) : Nat :=
  (balances.lookup token).getD 0

/-- Adds to what stands at a token. -/
def credit (token : Address) (amount : Nat) : Map Address Nat :=
  balances.insert token (balanceAt balances token + amount)

theorem balanceAt_insert (token other : Address) (amount : Nat) :
    balanceAt (balances.insert token amount) other =
      if other = token then amount else balanceAt balances other := by
  unfold balanceAt
  rw [lookup_insert_ite]
  split <;> rfl

/-- A credit adds to the balance of its token. -/
theorem balanceAt_credit (token other : Address) (amount : Nat) :
    balanceAt (credit balances token amount) other =
      balanceAt balances other + if other = token then amount else 0 := by
  rw [credit, balanceAt_insert]
  split
  · rename_i here
    rw [here]
  · rfl

end

end Fynd
