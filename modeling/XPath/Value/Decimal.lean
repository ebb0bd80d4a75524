import XPath.Value.Integer

/-!
# Scaled decimals

A `Decimal` is an integer and a scale: the number `unscaled / 10 ^ scale`, held exactly. One number
has many forms (`1.5`, `1.50`), and the form is kept: `Decimal.text` shows every digit of the scale.
Two forms are compared by their numbers (`Decimal.compare`), after both are brought to one scale
(`Decimal.atScale`).

Sums and differences keep the larger scale. Products, quotients and remainders are trimmed: no zero
ends their fraction.
-/

namespace XPath

-- Powers as core has them, also where Mathlib is imported.
attribute [local instance (5000)] instPowNat

/-- The number `unscaled / 10 ^ scale`. -/
structure Decimal where
  unscaled : Int
  scale : Nat
  deriving DecidableEq

namespace Decimal

/-- The integer as a decimal. -/
def ofInt (a : Int) : Decimal := ⟨a, 0⟩

/-- Zero at scale zero. -/
def zero : Decimal := ofInt 0

/-- Whether the number is zero, at whatever scale. -/
def isZero (d : Decimal) : Bool := d.unscaled == 0

/-- Whether the number is less than zero. -/
def isNegative (d : Decimal) : Bool := decide (d.unscaled < 0)

/-- The unscaled value of the same number at a scale no smaller than its own. -/
def atScale (d : Decimal) (scale : Nat) : Int :=
  d.unscaled * 10 ^ (scale - d.scale)

/-- The smallest scale that holds both numbers as they are written. -/
def commonScale (a b : Decimal) : Nat := max a.scale b.scale

/-! ## Order -/

/-- The order of the numbers, whatever their scales. -/
protected def compare (a b : Decimal) : Ordering :=
  compareOfLessAndEq (a.atScale (commonScale a b)) (b.atScale (commonScale a b))

instance : Ord Decimal := ⟨Decimal.compare⟩

/-- Equality of the numbers, whatever their scales. -/
def sameValue (a b : Decimal) : Bool :=
  Decimal.compare a b == .eq

/-! ## Arithmetic -/

/-- The sum, at the larger scale. -/
def add (a b : Decimal) : Decimal :=
  ⟨a.atScale (commonScale a b) + b.atScale (commonScale a b), commonScale a b⟩

/-- The difference, at the larger scale. -/
def sub (a b : Decimal) : Decimal :=
  ⟨a.atScale (commonScale a b) - b.atScale (commonScale a b), commonScale a b⟩

/-- The same number without zeros at the end of its fraction. -/
def trim (d : Decimal) : Decimal :=
  let (k, u) := Integer.trimZeros d.scale d.unscaled
  ⟨u, d.scale - k⟩

/-- The product, if its untrimmed scale is in range. -/
def mul (a b : Decimal) : Except ValueError Decimal :=
  if Integer.maxScale < a.scale + b.scale then
    .error (.scaleOutOfRange (a.scale + b.scale) Integer.maxScale)
  else .ok (trim ⟨a.unscaled * b.unscaled, a.scale + b.scale⟩)

/-- Division truncating toward zero, to an integer. -/
def quotient (a b : Decimal) : Except ValueError Int :=
  Integer.quotient (a.atScale (commonScale a b)) (b.atScale (commonScale a b))

/-- What `quotient` leaves over, with the sign of `a`. -/
def remainder (a b : Decimal) : Except ValueError Decimal :=
  (Integer.remainder (a.atScale (commonScale a b)) (b.atScale (commonScale a b))).map
    fun r => trim ⟨r, commonScale a b⟩

/-! ## Long division -/

/-- At most `places` more digits of a quotient by `b`, of which `q` with `digits` places is known
and `r` is left over. Stops early once nothing is left over. -/
def nextDigits (b : Int) : (places : Nat) → (q r : Int) → (digits : Nat) → Decimal
  | 0, q, _, digits => ⟨q, digits⟩
  | places + 1, q, r, digits =>
    if r = 0 then ⟨q, digits⟩
    else nextDigits b places (q * 10 + (r * 10).tdiv b) ((r * 10).tmod b) (digits + 1)

/-- Places of a quotient for which none are asked for. -/
def defaultPlaces : Nat := 24

/-- The quotient to at most `places` digits after the point, the rest cut off. By default as many
as the longer operand has, and no fewer than `defaultPlaces`. -/
def div (a b : Decimal) (places : Option Nat) : Except ValueError Decimal :=
  let x := a.atScale (commonScale a b)
  let y := b.atScale (commonScale a b)
  if y = 0 then .error .divisionByZero
  else .ok (trim (nextDigits y (places.getD (max (commonScale a b) defaultPlaces))
    (x.tdiv y) (x.tmod y) 0))

end Decimal

end XPath
