import XPath.Value.Double

/-!
# Nearest doubles

`Double.ofRatio` is the double nearest to a quotient of natural numbers, a half going to the even
neighbour. Everything that makes a double of an exact number goes through it: products, integers,
and `Double.ofScientific` for decimal digits.

The magnitude bits count the doubles from zero up, so a carry out of the rounded significand is
already the next double, and past the largest one it is infinity.
-/

namespace XPath.Double

-- Powers as core has them, also where Mathlib is imported.
attribute [local instance (5000)] instPowNat

/-- `num / den` to the nearest integer, a half to the even one. -/
def nearestQuotient (num den : Nat) : Nat :=
  let q := num / den
  let r := num % den
  if 2 * r < den then q else if den < 2 * r then q + 1 else q + q % 2

/-- The floor of the binary logarithm of `num / den`. -/
def floorLog2 (num den : Nat) : Int :=
  let k := (num.log2 : Int) - den.log2
  if num * 2 ^ (-k).toNat < den * 2 ^ k.toNat then k - 1 else k

/-- The exponent of the spacing of doubles at `num / den`: 53 significant bits, and no finer than
the smallest double. -/
def spacing (num den : Nat) : Int :=
  max (floorLog2 num den - 52) (-1074)

/-- The double nearest to `num / den`, for a positive `den`. -/
def ofRatio (negative : Bool) (num den : Nat) : Double :=
  if num = 0 then zero negative
  else
    let e := spacing num den
    let m := nearestQuotient (num * 2 ^ (-e).toNat) (den * 2 ^ e.toNat)
    ofMagnitude negative ((e + 1074).toNat * 2 ^ (52 : Nat) + m)

/-- How many decimal digits `n` has. -/
def digitCount (n : Nat) : Nat := (Nat.repr n).length

/-- The double nearest to `digits * 10 ^ exponent`. Far outside the range of doubles no power of ten
is built. -/
def ofScientific (negative : Bool) (digits : Nat) (exponent : Int) : Double :=
  let order := digitCount digits + exponent
  if digits = 0 ∨ order < -324 then zero negative
  else if 309 < order then infinity negative
  else ofRatio negative (digits * 10 ^ exponent.toNat) (10 ^ (-exponent).toNat)

/-- The nearest double to the exact product. -/
def mul (x y : Double) : Double :=
  let negative := x.negative != y.negative
  if x.isNaN || y.isNaN || x.isInfinite && y.isZero || x.isZero && y.isInfinite then nan
  else if x.isInfinite || y.isInfinite then infinity negative
  else ofRatio negative (x.numerator * y.numerator) (x.denominator * y.denominator)

end XPath.Double
