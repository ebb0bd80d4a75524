import XPath.Value.Decimal

/-!
# Rounding of decimals

`Decimal.round` keeps a number of places after the point, or before it where the number is negative.
A half goes up, toward positive infinity. `floor`, `ceil` and `truncate` are the three roundings to
an integer.
-/

namespace XPath.Decimal

-- Powers as core has them, also where Mathlib is imported.
attribute [local instance (5000)] instPowNat

/-- The floor of `u / 10 ^ n` plus a half. -/
def dropDigits (u : Int) (n : Nat) : Int :=
  u.fdiv (10 ^ n) + if 10 ^ n ≤ u.fmod (10 ^ n) * 2 then 1 else 0

/-- The nearest number with `places` digits after the point. Digits are added where there are fewer,
and no scale is negative: tens and hundreds are written out. -/
def round (d : Decimal) (places : Int) : Except ValueError Decimal :=
  if (d.scale : Int) ≤ places then
    .ok ⟨d.atScale places.toNat, places.toNat⟩
  else
    let dropped := ((d.scale : Int) - places).toNat
    if Integer.maxScale < dropped then .error (.scaleOutOfRange dropped Integer.maxScale)
    else .ok ⟨dropDigits d.unscaled dropped * 10 ^ (-places).toNat, places.toNat⟩

/-- The largest integer not above the number. -/
def floor (d : Decimal) : Decimal :=
  ofInt (d.unscaled.fdiv (10 ^ d.scale))

/-- The smallest integer not below the number. -/
def ceil (d : Decimal) : Decimal :=
  ofInt (d.unscaled.fdiv (10 ^ d.scale) + if d.unscaled.fmod (10 ^ d.scale) = 0 then 0 else 1)

/-- The integer part, truncated toward zero. -/
def truncate (d : Decimal) : Int :=
  d.unscaled.tdiv (10 ^ d.scale)

end XPath.Decimal
