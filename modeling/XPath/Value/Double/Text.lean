import XPath.Value.Double.Rounding
import XPath.Value.Integer

/-!
# Doubles as text

`Double.text` writes a finite double in scientific form with the fewest digits that read back, and
of those the nearest to its value: `1e3`, `1.5e-7`, `-0e0`.

The digits come from decimal grids. For one digit, two digits and so on the value's two neighbours
are tried (`Double.neighbours`), and the first grid on which one of them is read as the same double
has the shortest form. If both are, the nearer one is taken, and the upper one if they are equally
near.
-/

namespace XPath

-- Powers as core has them, also where Mathlib is imported.
attribute [local instance (5000)] instPowNat

/-- The number `digits * 10 ^ exponent`. -/
structure Scientific where
  digits : Nat
  exponent : Int
  deriving DecidableEq

namespace Scientific

/-- The same number without zeros at the end of its digits. -/
def trim (s : Scientific) : Scientific :=
  let (k, r) := Integer.trimZeros (Double.digitCount s.digits) s.digits
  if s.digits = 0 then ⟨0, 0⟩ else ⟨r.toNat, s.exponent + k⟩

/-- One digit before the point, the others after it. -/
def text (s : Scientific) : String :=
  let digits := (Nat.repr s.digits).toList
  let fraction := digits.drop 1
  String.ofList (digits.take 1) ++ (if fraction = [] then "" else "." ++ String.ofList fraction) ++
    "e" ++ Integer.text (s.exponent + fraction.length)

end Scientific

namespace Double

/-- The floor of the decimal logarithm of `num / den`, for positive `num` and `den`. -/
def floorLog10 (num den : Nat) : Int :=
  if den ≤ num then (digitCount (num / den) : Int) - 1 else -digitCount ((den - 1) / num)

/-- The decimal numbers of `count` digits next to a magnitude, with the nearer one first. -/
def neighbours (x : Double) (count : Nat) : List Scientific :=
  let e := floorLog10 x.numerator x.denominator + 1 - count
  let num := x.numerator * 10 ^ (-e).toNat
  let den := x.denominator * 10 ^ e.toNat
  let below := Scientific.trim ⟨num / den, e⟩
  let above := Scientific.trim ⟨num / den + 1, e⟩
  if 2 * (num % den) < den then [below, above] else [above, below]

/-- Read as the same magnitude. -/
def isReadFrom (x : Double) (s : Scientific) : Bool :=
  (ofScientific false s.digits s.exponent).magnitude == x.magnitude

/-- All digits of a finite magnitude. -/
def exactDigits (x : Double) : Scientific :=
  Scientific.trim ⟨x.significand * 2 ^ x.exponent.toNat * 5 ^ (-x.exponent).toNat,
    min x.exponent 0⟩

/-- The shortest decimal form of a finite magnitude. Seventeen digits are always enough. -/
def shortest (x : Double) : Scientific :=
  if x.isZero then ⟨0, 0⟩
  else (((List.range' 1 17).flatMap x.neighbours).find? x.isReadFrom).getD x.exactDigits

/-- The fewest digits that are read as this double, with their exponent. -/
def text (x : Double) : String :=
  if x.isFinite then (if x.negative then "-" else "") ++ x.shortest.text else x.nonFiniteText

/-! ## Reading -/

/-- Digits with at most one point among them: the number without its point, and the digits after
the point. -/
def mantissa? (cs : List Char) : Option (Nat × Nat) :=
  let whole := cs.takeWhile Char.isDigit
  let fraction := match cs.dropWhile Char.isDigit with
    | '.' :: rest => some rest
    | [] => some []
    | _ => none
  fraction.bind fun f => (Integer.ofDigits? (whole ++ f)).map (·, f.length)

/-- A sign, and digits with an optional point and exponent or the name of what is no finite
number. -/
def ofText? (s : String) : Option Double :=
  let (negative, cs) := Integer.splitSign s.toList
  let word := String.ofList (cs.map Char.toLower)
  if word = "inf" ∨ word = "infinity" then some (infinity negative)
  else if word = "nan" then some { nan with negative }
  else
    let isMark := fun c => c == 'e' || c == 'E'
    let exponent? := match cs.dropWhile (!isMark ·) with
      | [] => some 0
      | _ :: rest =>
        let (negative, digits) := Integer.splitSign rest
        (Integer.ofDigits? digits).map (Integer.withSign negative)
    (mantissa? (cs.takeWhile (!isMark ·))).bind fun (digits, places) =>
      exponent?.map fun e => ofScientific negative digits (e - places)

end Double

end XPath
