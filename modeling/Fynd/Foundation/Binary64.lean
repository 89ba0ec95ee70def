import Mathlib.Algebra.Group.Nat.Defs
import Mathlib.Data.Int.Order.Basic

/-!
# Double-precision numbers by their bits

A number is its 64 bits: a sign, eleven bits of exponent and 52 of fraction. Comparisons
read the bits as a signed magnitude. An operation computes with exact fractions and rounds
once, to nearest and on a tie to even.
-/

namespace Fynd.Foundation

/-- A double-precision number. -/
structure Binary64 where
  bits : BitVec 64
  deriving DecidableEq, Repr

namespace Binary64

/-- The bits below the sign. -/
def magnitude (number : Binary64) : Nat := number.bits.toNat % 2 ^ 63

def negative (number : Binary64) : Bool := 2 ^ 63 ≤ number.bits.toNat

/-- The magnitude of an infinity, above that of every finite number. -/
def infinityMagnitude : Nat := 2047 * 2 ^ 52

def isNaN (number : Binary64) : Bool := infinityMagnitude < number.magnitude

def isInfinite (number : Binary64) : Bool := number.magnitude = infinityMagnitude

def isZero (number : Binary64) : Bool := number.magnitude = 0

/-- A sign and a magnitude. -/
def ofMagnitude (negative : Bool) (magnitude : Nat) : Binary64 :=
  ⟨BitVec.ofNat 64 (if negative then 2 ^ 63 + magnitude else magnitude)⟩

def zero (negative : Bool) : Binary64 := ofMagnitude negative 0

def infinity (negative : Bool) : Binary64 := ofMagnitude negative infinityMagnitude

/-- The quiet not-a-number. -/
def nan : Binary64 := ofMagnitude false (infinityMagnitude + 2 ^ 51)

/-! ## Comparison -/

/-- The place of a number in the order. Both zeros have the same. -/
def place (number : Binary64) : Int :=
  if number.negative then -(number.magnitude : Int) else number.magnitude

/-- How two numbers compare, if both are numbers. -/
def partialCmp (left right : Binary64) : Option Ordering :=
  if left.isNaN || right.isNaN then none else some (compare left.place right.place)

def lt (left right : Binary64) : Bool := left.partialCmp right = some .lt

def gt (left right : Binary64) : Bool := left.partialCmp right = some .gt

def le (left right : Binary64) : Bool := left.lt right || left.partialCmp right = some .eq

def ge (left right : Binary64) : Bool := left.gt right || left.partialCmp right = some .eq

/-- Equality of values: the zeros are equal, and a not-a-number equals nothing. -/
def eq (left right : Binary64) : Bool := left.partialCmp right = some .eq

/-- The number if it lies between two bounds, else the bound it is beyond. -/
def clamp (number lower upper : Binary64) : Binary64 :=
  if number.lt lower then lower else if number.gt upper then upper else number

theorem not_gt_of_eq {left right : Binary64} (same : left.eq right = true) :
    left.gt right = false := by
  simp only [eq, decide_eq_true_eq] at same
  simp [gt, same]

/-! ## Arithmetic -/

/-- The quotient rounded to nearest, on a tie to even. -/
def roundedQuotient (numerator denominator : Nat) : Nat :=
  let quotient := numerator / denominator
  let twice := 2 * (numerator % denominator)
  if twice < denominator then quotient
  else if denominator < twice then quotient + 1
  else quotient + quotient % 2

/-- The number nearest to a fraction with the given sign. -/
def ofFraction (negative : Bool) (numerator denominator : Nat) : Binary64 :=
  if numerator = 0 then zero negative
  else
    let scaled := fun exponent : Int =>
      (numerator * 2 ^ (-exponent).toNat, denominator * 2 ^ exponent.toNat)
    -- At this exponent the fraction has 53 or 54 bits before the point, unless it is tiny.
    let least : Int := max (-1074) ((numerator.log2 : Int) - denominator.log2 - 53)
    let exponent :=
      if (scaled least).1 < 2 ^ 53 * (scaled least).2 then least else least + 1
    let rounded := roundedQuotient (scaled exponent).1 (scaled exponent).2
    -- A carry out of the significand moves to the next exponent by itself.
    ofMagnitude negative (min infinityMagnitude ((exponent + 1074).toNat * 2 ^ 52 + rounded))

/-- A finite number without its sign, as a numerator and a denominator. -/
def toFraction (number : Binary64) : Nat × Nat :=
  let exponent := number.magnitude / 2 ^ 52
  let fraction := number.magnitude % 2 ^ 52
  if exponent = 0 then (fraction, 2 ^ 1074)
  else ((2 ^ 52 + fraction) * 2 ^ (exponent - 1075), 2 ^ (1075 - exponent))

def ofNat (value : Nat) : Binary64 := ofFraction false value 1

instance (value : Nat) : OfNat Binary64 value := ⟨ofNat value⟩

/-- A decimal literal is the number nearest to it. -/
instance : OfScientific Binary64 where
  ofScientific mantissa exponentSign decimalExponent :=
    if exponentSign then ofFraction false mantissa (10 ^ decimalExponent)
    else ofNat (mantissa * 10 ^ decimalExponent)

def add (left right : Binary64) : Binary64 :=
  if left.isNaN || right.isNaN then nan
  else if left.isInfinite then
    if right.isInfinite && left.negative != right.negative then nan else left
  else if right.isInfinite then right
  else
    let signed := fun (number : Binary64) (numerator : Nat) =>
      if number.negative then -(numerator : Int) else numerator
    let (leftNumerator, leftDenominator) := left.toFraction
    let (rightNumerator, rightDenominator) := right.toFraction
    let sum := signed left (leftNumerator * rightDenominator) +
      signed right (rightNumerator * leftDenominator)
    if sum = 0 then zero (left.negative && right.negative)
    else ofFraction (sum < 0) sum.natAbs (leftDenominator * rightDenominator)

def mul (left right : Binary64) : Binary64 :=
  let negative := left.negative != right.negative
  if left.isNaN || right.isNaN then nan
  else if left.isInfinite || right.isInfinite then
    if left.isZero || right.isZero then nan else infinity negative
  else
    ofFraction negative (left.toFraction.1 * right.toFraction.1)
      (left.toFraction.2 * right.toFraction.2)

def div (left right : Binary64) : Binary64 :=
  let negative := left.negative != right.negative
  if left.isNaN || right.isNaN then nan
  else if left.isInfinite then if right.isInfinite then nan else infinity negative
  else if right.isInfinite then zero negative
  else if right.isZero then if left.isZero then nan else infinity negative
  else
    ofFraction negative (left.toFraction.1 * right.toFraction.2)
      (left.toFraction.2 * right.toFraction.1)

/-- The integer part, within what 64 bits hold. -/
def toU64 (number : Binary64) : Nat :=
  if number.isNaN || number.negative then 0
  else if number.isInfinite then 2 ^ 64 - 1
  else min (number.toFraction.1 / number.toFraction.2) (2 ^ 64 - 1)

/-- The number with the other sign. -/
def neg (number : Binary64) : Binary64 := ofMagnitude (!number.negative) number.magnitude

def sub (left right : Binary64) : Binary64 := left.add right.neg

/-- The least integer not below the number, within what 128 bits hold. -/
def ceilToU128 (number : Binary64) : Nat :=
  if number.isNaN || number.negative then 0
  else if number.isInfinite then 2 ^ 128 - 1
  else
    let (numerator, denominator) := number.toFraction
    min ((numerator + denominator - 1) / denominator) (2 ^ 128 - 1)

/-- Repeated squaring: the result so far, the square at hand and the exponent left. -/
def powiFrom : Nat → Binary64 → Binary64 → Nat → Binary64
  | 0, result, _, _ => result
  | steps + 1, result, square, exponent =>
    let result := if exponent % 2 = 1 then result.mul square else result
    if exponent / 2 = 0 then result else powiFrom steps result (square.mul square) (exponent / 2)

/-- A power with an integer exponent, rounded after every product. -/
def powi (base : Binary64) (exponent : Int) : Binary64 :=
  let power := powiFrom (exponent.natAbs + 1) 1 base exponent.natAbs
  if exponent < 0 then div 1 power else power

theorem ceilToU128_zero_div (divisor : Binary64) : ((0 : Binary64).div divisor).ceilToU128 = 0 := by
  have ofNaN : nan.ceilToU128 = 0 := by decide +kernel
  have ofZero (negative : Bool) : (zero negative).ceilToU128 = 0 := by
    cases negative <;> decide +kernel
  have finite : (0 : Binary64).isNaN = false ∧ (0 : Binary64).isInfinite = false ∧
      (0 : Binary64).isZero = true ∧ (0 : Binary64).toFraction.1 = 0 := by decide +kernel
  unfold div
  simp only [finite, Bool.false_or, Bool.false_eq_true, if_false, if_true]
  split
  · exact ofNaN
  · split
    · exact ofZero _
    · split
      · exact ofNaN
      · rw [Nat.zero_mul, ofFraction, if_pos rfl]
        exact ofZero _

end Binary64

end Fynd.Foundation
