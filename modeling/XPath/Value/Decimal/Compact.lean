import XPath.Value.Decimal.Text

/-!
# Decimals of 96 bits

A compact decimal is one that fits into three 32-bit words and a short scale. A decimal has such a
form if its number does; then the form is that of the trimmed decimal (`Decimal.compactIn`).

How compact decimals are held is up to a `CompactFormat`, which also says which it holds. A
`CompactDecimal` holds all that fit.
-/

namespace XPath

-- Powers as core has them, also where Mathlib is imported.
attribute [local instance (5000)] instPowNat

/-- Decimals of a fixed size, made from a mantissa of at most 128 bits and a scale. -/
structure CompactFormat (γ : Type) where
  ofParts? : (mantissa : Int) → (scale : Nat) → Option γ
  mantissa : γ → Int
  scale : γ → Nat

namespace CompactFormat

variable {γ : Type}

/-- The most places that are asked of a format. -/
def maxScale : Nat := 28

/-- The number that a value of the format stands for. -/
def toDecimal (F : CompactFormat γ) (c : γ) : Decimal := ⟨F.mantissa c, F.scale c⟩

end CompactFormat

/-- The trimmed decimal, if it is compact. A scale that is too large is reported before a mantissa
that is. -/
def Decimal.compactIn {γ : Type} (F : CompactFormat γ) (d : Decimal) : Except ValueError γ :=
  if CompactFormat.maxScale < d.trim.scale then
    .error (.scaleOutOfRange d.trim.scale CompactFormat.maxScale)
  else
    match (Integer.inBits? 128 d.trim.unscaled).bind (F.ofParts? · d.trim.scale) with
    | some c => .ok c
    | none => .error (.invalidNumber d.text)

/-! ## A format -/

/-- A decimal with a mantissa of at most 96 bits and at most 28 places. -/
structure CompactDecimal where
  mantissa : Int
  scale : Nat
  mantissa_lt : mantissa.natAbs < 2 ^ (96 : Nat)
  scale_le : scale ≤ 28
  deriving DecidableEq

namespace CompactDecimal

/-- The number of this mantissa at this scale, if both fit. -/
def ofParts? (mantissa : Int) (scale : Nat) : Option CompactDecimal :=
  if h : mantissa.natAbs < 2 ^ (96 : Nat) ∧ scale ≤ 28 then some ⟨mantissa, scale, h.1, h.2⟩
  else none

/-- The format whose mantissa has 96 bits. -/
def format : CompactFormat CompactDecimal := ⟨ofParts?, mantissa, scale⟩

/-- The number without its bounds. -/
def toDecimal (c : CompactDecimal) : Decimal := format.toDecimal c

end CompactDecimal

/-- The number with trailing zeros removed, if it fits then. -/
def Decimal.compact (d : Decimal) : Except ValueError CompactDecimal :=
  d.compactIn CompactDecimal.format

end XPath
