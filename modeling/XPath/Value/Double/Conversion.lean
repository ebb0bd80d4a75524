import XPath.Value.Decimal.Text
import XPath.Value.Double.Text

/-!
# Between doubles and exact numbers

A decimal goes to the nearest double. An integer is first cut to its leading 64 bits, and these are
rounded to the nearest double, a half to the even one. So that the cut does not make a half of what
is more than a half, the lowest bit kept is set if a bit is seen below it (`Integer.lead`).

Integers below `2 ^ 64` are not cut. Below `2 ^ 128`, and whenever the leading word is full, every
bit cut off is seen. In a longer integer only the low bits of each word are looked at, as many as
the leading word has: one that is above a half by a higher bit alone goes to the even neighbour.

The other way a finite double is rounded to an integer, halves away from zero, at a scale of its own
or after it is multiplied by a power of ten in binary arithmetic.
-/

namespace XPath

-- Powers as core has them, also where Mathlib is imported.
attribute [local instance (5000)] instPowNat

namespace Integer

/-- Whether a bit is seen in the words of 64 bits below the leading word, of each of which as many
low bits are looked at as the leading word has. -/
def seenBelow (n : Nat) : Bool :=
  (List.range (n.log2 / 64)).any fun i => (n >>> (64 * i)) % 2 ^ (n.log2 % 64 + 1) != 0

/-- The leading 64 bits of `n`, in their place and with zeros below. The lowest of them stands also
for a bit seen below it. -/
def lead (n : Nat) : Nat :=
  let cut := n.log2 - 63
  (n >>> cut ||| (seenBelow n).toNat) <<< cut

/-- The double of an integer, infinite beyond the range. -/
def toDouble (a : Int) : Double :=
  Double.ofRatio (decide (a < 0)) (lead a.natAbs) 1

/-- The nearest integer, halves away from zero. -/
def ofDouble (x : Double) : Except ValueError Int :=
  if x.isFinite then
    .ok (withSign x.negative ((2 * x.numerator + x.denominator) / (2 * x.denominator)))
  else .error (.nonFinite x.nonFiniteText)

end Integer

namespace Decimal

/-- The double nearest to the decimal. -/
def toDouble (d : Decimal) : Double :=
  Double.ofScientific d.isNegative d.unscaled.natAbs (-d.scale)

/-- The largest power of ten that a double is multiplied by. -/
def maxBinaryScale : Nat := 2 ^ (31 : Nat) - 1

/-- A double at a scale: the nearest integer to its product with a power of ten. -/
def ofDouble (x : Double) (scale : Nat) : Except ValueError Decimal :=
  if !x.isFinite then .error (.nonFinite x.nonFiniteText)
  else if maxBinaryScale < scale then .error (.scaleOutOfRange scale maxBinaryScale)
  else (Integer.ofDouble (x.mul (Double.ofScientific false 1 scale))).map (⟨·, scale⟩)

end Decimal

end XPath
