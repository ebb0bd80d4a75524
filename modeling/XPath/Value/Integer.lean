import XPath.Value.Error

/-!
# Integers of any size

`xs:integer` values are Lean's `Int`. What is here is the arithmetic that can fail or that has more
than one usual reading: the quotient truncates toward zero and the remainder takes the sign of the
dividend, so `b * quotient a b + remainder a b = a`.

`trimZeros` strips trailing zero digits. It is exact (`trimZeros_mul_pow`) and takes as many digits
as it may (`trimZeros_maximal`).
-/

namespace XPath.Integer

-- Powers as core has them, also where Mathlib is imported.
attribute [local instance (5000)] instPowNat

/-- The largest scale or power of ten that is ever built. -/
def maxScale : Nat := 2 ^ (32 : Nat) - 1

/-- `10 ^ order`, for an order between 0 and `maxScale`. -/
def powerOfTen (order : Int) : Except ValueError Int :=
  if order < 0 then .error (.negativeMagnitude order)
  else if maxScale < order.toNat then .error (.scaleOutOfRange order.toNat maxScale)
  else .ok (10 ^ order.toNat)

/-- Division truncating toward zero. -/
def quotient (a b : Int) : Except ValueError Int :=
  if b = 0 then .error .divisionByZero else .ok (a.tdiv b)

/-- What `quotient` leaves over, with the sign of `a`. -/
def remainder (a b : Int) : Except ValueError Int :=
  if b = 0 then .error .divisionByZero else .ok (a.tmod b)

/-- Both negative, or neither. -/
def sameSign (a b : Int) : Bool :=
  decide (a < 0) == decide (b < 0)

/-- The floor of the decimal logarithm: one less than the number of digits. -/
def log10 (a : Int) : Except ValueError Int :=
  if a ≤ 0 then .error .nonPositiveLogarithm else .ok ((Nat.repr a.toNat).length - 1)

/-- `a`, if it is a signed number of `bits` bits. -/
def inBits? (bits : Nat) (a : Int) : Option Int :=
  if -2 ^ (bits - 1) ≤ a ∧ a < 2 ^ (bits - 1) then some a else none

/-! ## Text -/

/-- One or more ASCII digits, as a number. -/
def ofDigits? (cs : List Char) : Option Nat :=
  if cs ≠ [] ∧ cs.all Char.isDigit then some (Nat.ofDigitChars 10 cs 0) else none

/-- A sign, if one is written, and what follows it. -/
def splitSign : List Char → Bool × List Char
  | '-' :: cs => (true, cs)
  | '+' :: cs => (false, cs)
  | cs => (false, cs)

/-- `n` or its negation. -/
def withSign (negative : Bool) (n : Nat) : Int :=
  if negative then -(n : Int) else n

/-- An optional sign and ASCII digits, nothing else. -/
def ofText (s : String) : Except ValueError Int :=
  let (negative, cs) := splitSign s.toList
  match ofDigits? cs with
  | some n => .ok (withSign negative n)
  | none => .error (.invalidNumber s)

/-- The decimal digits, with a minus sign if there is one. -/
def text (a : Int) : String :=
  (if a < 0 then "-" else "") ++ Nat.repr a.natAbs

/-! ## Trailing zeros -/

/-- The number of zero digits taken off the end of `v`, at most `max`, and what is left. -/
def stripZeros : (max : Nat) → (v : Int) → Nat × Int
  | 0, v => (0, v)
  | max + 1, v =>
    if v % 10 = 0 then
      let (k, r) := stripZeros max (v / 10)
      (k + 1, r)
    else (0, v)

/-- As `stripZeros`, except that zero has nothing to keep and gives up all `max` digits. -/
def trimZeros (max : Nat) (v : Int) : Nat × Int :=
  if v = 0 then (max, 0) else stripZeros max v

/-- No more zeros go than may. -/
theorem stripZeros_le (max : Nat) (v : Int) : (stripZeros max v).1 ≤ max := by
  induction max generalizing v with
  | zero => simp [stripZeros]
  | succ max ih =>
    unfold stripZeros
    split
    · exact Nat.succ_le_succ (ih _)
    · exact Nat.zero_le _

/-- The integer is what is left with its zeros put back. -/
theorem stripZeros_mul_pow (max : Nat) (v : Int) :
    (stripZeros max v).2 * 10 ^ (stripZeros max v).1 = v := by
  induction max generalizing v with
  | zero => simp [stripZeros]
  | succ max ih =>
    unfold stripZeros
    split
    next h =>
      simp only [Int.pow_succ, ← Int.mul_assoc, ih]
      omega
    · simp

/-- As many go as may, or another digit is left at the end. -/
theorem stripZeros_maximal (max : Nat) (v : Int) :
    (stripZeros max v).1 = max ∨ (stripZeros max v).2 % 10 ≠ 0 := by
  induction max generalizing v with
  | zero => simp [stripZeros]
  | succ max ih =>
    unfold stripZeros
    split
    · rcases ih (v / 10) with h | h
      · exact Or.inl (congrArg (· + 1) h)
      · exact Or.inr h
    next h => exact Or.inr h

/-- No more zeros go than may. -/
theorem trimZeros_le (max : Nat) (v : Int) : (trimZeros max v).1 ≤ max := by
  unfold trimZeros
  split
  · exact Nat.le_refl max
  · exact stripZeros_le max v

/-- The integer is what is left with its zeros put back. -/
theorem trimZeros_mul_pow (max : Nat) (v : Int) :
    (trimZeros max v).2 * 10 ^ (trimZeros max v).1 = v := by
  unfold trimZeros
  split
  next h => simp [h]
  · exact stripZeros_mul_pow max v

/-- Zero apart, another digit is left at the end if not all zeros go that may. -/
theorem trimZeros_maximal {max : Nat} {v : Int} (hv : v ≠ 0) :
    (trimZeros max v).1 = max ∨ (trimZeros max v).2 % 10 ≠ 0 := by
  rw [trimZeros, if_neg hv]
  exact stripZeros_maximal max v

end XPath.Integer
