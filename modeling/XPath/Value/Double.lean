import XPath.Value.Error

/-!
# Binary64 numbers

`xs:double` values, as a sign and the 63 bits below it. Read as one number, those bits order the
magnitudes: subnormal, normal, infinity, then the NaNs. A finite double is
`significand * 2 ^ exponent`.

Two zeros differ in sign, and so in identity, but not in value; a NaN has no value and differs even
from itself (`Double.sameValue`).
-/

namespace XPath

-- Powers as core has them, also where Mathlib is imported.
attribute [local instance (5000)] instPowNat

/-- A double-precision number, as its sign and the bits without it. -/
structure Double where
  negative : Bool
  /-- The exponent bits over the fraction bits. -/
  magnitude : Nat
  magnitude_lt : magnitude < 2 ^ (63 : Nat)
  deriving DecidableEq

namespace Double

/-- All exponent bits and no fraction bit. -/
def infinityMagnitude : Nat := 0x7ff * 2 ^ (52 : Nat)

/-- Zero of either sign. -/
def zero (negative : Bool) : Double := ⟨negative, 0, by decide⟩

/-- Infinity of either sign. -/
def infinity (negative : Bool) : Double := ⟨negative, infinityMagnitude, by decide⟩

/-- The quiet NaN whose other bits are zero. -/
def nan : Double := ⟨false, infinityMagnitude + 2 ^ (51 : Nat), by decide⟩

/-- A double of at most infinite magnitude. -/
def ofMagnitude (negative : Bool) (magnitude : Nat) : Double :=
  ⟨negative, min magnitude infinityMagnitude,
    Nat.lt_of_le_of_lt (Nat.min_le_right _ _) (by decide)⟩

/-- The bits of every NaN are above those of infinity. -/
def isNaN (x : Double) : Bool := decide (infinityMagnitude < x.magnitude)

/-- Whether the number is infinity, of either sign. -/
def isInfinite (x : Double) : Bool := x.magnitude == infinityMagnitude

/-- The bits of every number are below those of infinity. -/
def isFinite (x : Double) : Bool := decide (x.magnitude < infinityMagnitude)

/-- Whether the number is zero, of either sign. -/
def isZero (x : Double) : Bool := x.magnitude == 0

/-- The number with the other sign, which zero and NaN have too. -/
def neg (x : Double) : Double := { x with negative := !x.negative }

/-- IEEE equality. -/
def sameValue (x y : Double) : Bool :=
  !x.isNaN && !y.isNaN && (x == y || x.isZero && y.isZero)

/-! ## Finite doubles -/

/-- The fraction bits, below a leading one unless the number is subnormal. -/
def significand (x : Double) : Nat :=
  if x.magnitude < 2 ^ (52 : Nat) then x.magnitude else 2 ^ (52 : Nat) + x.magnitude % 2 ^
    (52 : Nat)

/-- The power of two that the significand is multiplied by. -/
def exponent (x : Double) : Int :=
  (max (x.magnitude / 2 ^ (52 : Nat)) 1 : Nat) - 1075

/-- The numerator of the magnitude. -/
def numerator (x : Double) : Nat := x.significand * 2 ^ x.exponent.toNat

/-- The denominator of the magnitude, a power of two. -/
def denominator (x : Double) : Nat := 2 ^ (-x.exponent).toNat

/-! ## Bits -/

/-- The interchange format: the sign over the magnitude. -/
def bits (x : Double) : Nat := (if x.negative then 2 ^ (63 : Nat) else 0) + x.magnitude

/-- The text of what is no finite number. -/
def nonFiniteText (x : Double) : String :=
  if x.isNaN then "NaN" else if x.negative then "-inf" else "inf"

end Double

end XPath
