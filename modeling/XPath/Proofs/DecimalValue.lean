import Mathlib.Algebra.Order.Field.Power
import Mathlib.Algebra.Order.Field.Rat
import Mathlib.Tactic.Positivity
import Mathlib.Tactic.Ring
import XPath.Value.Decimal

/-!
# The numbers that decimals are

A decimal is the rational number `Decimal.value`. At a common scale it is the unscaled integer over
a power of ten (`Decimal.value_eq_atScale`), so sums, differences and comparisons of the integers
are those of the numbers. Trimming takes as many zeros off the integer as it takes places off the
scale (`Decimal.value_trim`), and leaves none at the end (`Decimal.trimmed_trim`).

Together: the arithmetic is exact, and the order is the order of the numbers
(`Decimal.arithmetic_exact`).
-/

namespace XPath.Decimal

/-- The number that the decimal stands for. -/
def value (d : Decimal) : ℚ := d.unscaled / 10 ^ d.scale

/-- No zero ends the fraction. -/
def Trimmed (d : Decimal) : Prop := d.scale = 0 ∨ ¬ (10 : ℤ) ∣ d.unscaled

/-! ## One scale -/

/-- Zeros at the end of a fraction do not count. -/
theorem value_mul_pow (u : Int) (k scale : Nat) :
    (⟨u * 10 ^ k, scale + k⟩ : Decimal).value = (⟨u, scale⟩ : Decimal).value := by
  rw [value, value, pow_add]
  push_cast
  exact mul_div_mul_right _ _ (by positivity)

/-- The value is that of the digits at any scale that is large enough. -/
theorem value_eq_atScale {d : Decimal} {scale : Nat} (h : d.scale ≤ scale) :
    d.value = d.atScale scale / 10 ^ scale := by
  obtain ⟨k, rfl⟩ := Nat.exists_eq_add_of_le h
  rw [atScale, Nat.add_sub_cancel_left]
  exact (value_mul_pow d.unscaled k d.scale).symm

/-- The first number, by its digits at the scale of both. -/
theorem value_left (a b : Decimal) :
    a.value = a.atScale (commonScale a b) / 10 ^ commonScale a b :=
  value_eq_atScale (Nat.le_max_left _ _)

/-- The second number, by its digits at the scale of both. -/
theorem value_right (a b : Decimal) :
    b.value = b.atScale (commonScale a b) / 10 ^ commonScale a b :=
  value_eq_atScale (Nat.le_max_right _ _)

/-- Addition is exact. -/
theorem value_add (a b : Decimal) : (add a b).value = a.value + b.value := by
  rw [value_left a b, value_right a b, ← add_div, add, value]
  push_cast
  rfl

/-- Subtraction is exact. -/
theorem value_sub (a b : Decimal) : (sub a b).value = a.value - b.value := by
  rw [value_left a b, value_right a b, ← sub_div, sub, value]
  push_cast
  rfl

/-! ## Trimming -/

/-- Trimming keeps the value. -/
theorem value_trim (d : Decimal) : d.trim.value = d.value := by
  have hle := Integer.trimZeros_le d.scale d.unscaled
  have hmul := Integer.trimZeros_mul_pow d.scale d.unscaled
  calc d.trim.value
      = (⟨(Integer.trimZeros d.scale d.unscaled).2 * 10 ^ (Integer.trimZeros d.scale d.unscaled).1,
          d.scale - (Integer.trimZeros d.scale d.unscaled).1 +
            (Integer.trimZeros d.scale d.unscaled).1⟩ : Decimal).value :=
        (value_mul_pow _ _ _).symm
    _ = d.value := by
        rw [Nat.sub_add_cancel hle]
        exact congrArg (fun u => (⟨u, d.scale⟩ : Decimal).value) hmul

/-- What has been trimmed has no zero left to give up. -/
theorem trimmed_trim (d : Decimal) : d.trim.Trimmed := by
  have hscale : d.trim.scale = d.scale - (Integer.trimZeros d.scale d.unscaled).1 := rfl
  have hunscaled : d.trim.unscaled = (Integer.trimZeros d.scale d.unscaled).2 := rfl
  rw [Trimmed, hscale, hunscaled, Int.dvd_iff_emod_eq_zero]
  by_cases hzero : d.unscaled = 0
  · exact .inl (by simp [hzero, Integer.trimZeros])
  · exact (Integer.trimZeros_maximal hzero).imp (fun h => by omega) id

theorem value_product (a b : Decimal) :
    (⟨a.unscaled * b.unscaled, a.scale + b.scale⟩ : Decimal).value = a.value * b.value := by
  rw [value, value, value, pow_add, div_mul_div_comm]
  push_cast
  rfl

/-- A product is trimmed, if the scale admits it. -/
theorem mul_eq_ok {a b : Decimal} (h : a.scale + b.scale ≤ Integer.maxScale) :
    mul a b = .ok (trim ⟨a.unscaled * b.unscaled, a.scale + b.scale⟩) :=
  if_neg (Nat.not_lt.mpr h)

/-- The product of two scales that are too large together is an error. -/
theorem mul_eq_error {a b : Decimal} (h : Integer.maxScale < a.scale + b.scale) :
    mul a b = .error (.scaleOutOfRange (a.scale + b.scale) Integer.maxScale) :=
  if_pos h

/-! ## Order -/

/-- The order of decimals is that of their values. -/
theorem compare_eq_value (a b : Decimal) : Decimal.compare a b = compare a.value b.value := by
  have hpow : (0 : ℚ) < 10 ^ commonScale a b := by positivity
  have hlt : a.value < b.value ↔ a.atScale (commonScale a b) < b.atScale (commonScale a b) := by
    rw [value_left a b, value_right a b, div_lt_div_iff_of_pos_right hpow, Int.cast_lt]
  have heq : a.value = b.value ↔ a.atScale (commonScale a b) = b.atScale (commonScale a b) := by
    rw [value_left a b, value_right a b, div_left_inj' hpow.ne', Int.cast_inj]
  rw [Decimal.compare, LinearOrder.compare_eq_compareOfLessAndEq]
  simp only [compareOfLessAndEq, hlt, heq]

/-- Decimals are the same number if their values are. -/
theorem sameValue_iff (a b : Decimal) : a.sameValue b = true ↔ a.value = b.value := by
  rw [sameValue, beq_iff_eq, compare_eq_value, compare_eq_iff_eq]

/-- Decimals are ordered as their numbers are. -/
instance : Std.TransOrd Decimal where
  eq_swap {a b} := by
    change Decimal.compare a b = (Decimal.compare b a).swap
    rw [compare_eq_value, compare_eq_value]
    exact Std.OrientedOrd.eq_swap
  isLE_trans {a b c} hab hbc := by
    change (Decimal.compare a b).isLE at hab
    change (Decimal.compare b c).isLE at hbc
    change (Decimal.compare a c).isLE
    rw [compare_eq_value] at *
    exact Std.TransOrd.isLE_trans hab hbc

/-! ## Exactness -/

/-- What is computed from two decimals is what their numbers give. -/
structure ArithmeticExact (a b : Decimal) : Prop where
  sum : (add a b).value = a.value + b.value
  sum_scale : (add a b).scale = max a.scale b.scale
  difference : (sub a b).value = a.value - b.value
  difference_scale : (sub a b).scale = max a.scale b.scale
  product : (∃ p, mul a b = .ok p ∧ p.value = a.value * b.value ∧ p.Trimmed) ↔
    a.scale + b.scale ≤ 2 ^ 32 - 1
  no_product : mul a b = .error (.scaleOutOfRange (a.scale + b.scale) (2 ^ 32 - 1)) ↔
    2 ^ 32 - 1 < a.scale + b.scale
  order : compare a b = compare a.value b.value
  equality : a.sameValue b = true ↔ a.value = b.value
  same_iff_eq : a.sameValue b = true ↔ compare a b = .eq

/-- The arithmetic of decimals is exact, and their order is a total one that agrees with
equality. -/
theorem arithmetic_exact : (∀ a b, ArithmeticExact a b) ∧ Std.TransOrd Decimal := by
  refine ⟨fun a b => ?_, inferInstance⟩
  have hmax : Integer.maxScale = 2 ^ 32 - 1 := rfl
  constructor
  case sum => exact value_add a b
  case sum_scale => rfl
  case difference => exact value_sub a b
  case difference_scale => rfl
  case product =>
    constructor
    · rintro ⟨p, hp, -⟩
      refine Nat.not_lt.mp fun h => ?_
      rw [mul_eq_error h] at hp
      cases hp
    · intro h
      exact ⟨_, mul_eq_ok h, (value_trim _).trans (value_product a b), trimmed_trim _⟩
  case no_product =>
    refine ⟨fun herror => Nat.not_le.mp fun h => ?_, mul_eq_error⟩
    rw [mul_eq_ok h] at herror
    cases herror
  case order => exact compare_eq_value a b
  case equality => exact sameValue_iff a b
  case same_iff_eq => exact beq_iff_eq

end XPath.Decimal
