import XPath.Value.Decimal.Rounding

/-!
# Decimals as text

The text of a decimal shows every digit of its scale, and one zero after the point where the scale
is 0. Reading takes an optional sign and digits with at most one point among them; the digits after
the point are the scale.
-/

namespace XPath.Decimal

/-- The digits of `n`, with zeros in front up to `width`. -/
def padded (width n : Nat) : List Char :=
  let digits := (Nat.repr n).toList
  List.replicate (width - digits.length) '0' ++ digits

/-- The digits with a point among them, and always one behind it. -/
def text (d : Decimal) : String :=
  let digits := padded (d.scale + 1) d.unscaled.natAbs
  let point := digits.length - d.scale
  (if d.unscaled < 0 then "-" else "") ++ String.ofList (digits.take point) ++ "." ++
    if d.scale = 0 then "0" else String.ofList (digits.drop point)

/-- The characters before the first point, and those after it. -/
def splitPoint (cs : List Char) : List Char × List Char :=
  (cs.takeWhile (· ≠ '.'), (cs.dropWhile (· ≠ '.')).drop 1)

/-- The number that a text is, at the scale of its fraction. -/
def ofText (s : String) : Except ValueError Decimal :=
  let (negative, cs) := Integer.splitSign s.toList
  let (whole, fraction) := splitPoint cs
  match Integer.ofDigits? (whole ++ fraction) with
  | none => .error (.invalidNumber s)
  | some n =>
    if Integer.maxScale < fraction.length then
      .error (.scaleOutOfRange fraction.length Integer.maxScale)
    else .ok ⟨Integer.withSign negative n, fraction.length⟩

/-- The text of the number rounded to `places`, without a point where no place was asked for. -/
def fixedText (d : Decimal) (places : Int) : Except ValueError String :=
  (d.round places).map fun r =>
    if places ≤ 0 then Integer.text r.unscaled else r.text

end XPath.Decimal
