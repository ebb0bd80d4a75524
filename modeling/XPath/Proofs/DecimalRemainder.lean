import Mathlib.Data.Sign.Basic
import XPath.Proofs.DecimalQuotient

/-!
# Integer quotient and remainder of decimals

At a common scale the quotient and the remainder of two decimals are those of two integers, and so
are their laws: the remainder is smaller than the divisor (`abs_tmod_lt`) and has the sign of the
dividend (`sign_tmod_eq`). The power of ten of the common scale divides all terms of such a law
alike, so the law holds of the numbers (`Decimal.quotientRemainder_atScale`).

Only a divisor of zero fails, in both operations and at any scale (`Decimal.quotient_remainder`).
-/

namespace XPath

/-- A remainder is smaller than what is divided by. -/
theorem abs_tmod_lt (x : ℤ) {y : ℤ} (hy : y ≠ 0) : |x.tmod y| < |y| := by
  rw [Int.abs_eq_natAbs, Int.abs_eq_natAbs, Int.natAbs_tmod]
  exact_mod_cast Nat.mod_lt _ (Int.natAbs_pos.mpr hy)

/-- A remainder that is not zero has the sign of the dividend. -/
theorem sign_tmod_eq {x y : ℤ} (h : x.tmod y ≠ 0) :
    SignType.sign (x.tmod y : ℚ) = SignType.sign (x : ℚ) := by
  have hdvd : ¬ y ∣ x := mt Int.tmod_eq_zero_of_dvd h
  have hsign := Int.sign_tmod x y
  rw [if_neg hdvd, Int.sign_eq_sign, Int.sign_eq_sign] at hsign
  have hinjective : ∀ s t : SignType, (s : ℤ) = t → s = t := by decide
  rw [sign_intCast, sign_intCast]
  exact hinjective _ _ hsign

/-- A number has the sign of its digits. -/
theorem sign_div_pow_ten (x : ℚ) (scale : ℕ) :
    SignType.sign (x / 10 ^ scale) = SignType.sign x := by
  have hpow : (0 : ℚ) < (10 ^ scale)⁻¹ := by positivity
  rw [div_eq_mul_inv, sign_mul, sign_pos hpow, mul_one]

namespace Decimal

/-- A quotient `q` with its fraction cut off, and what it leaves over. -/
structure QuotientRemainder (a b : Decimal) (q : Int) (r : Decimal) : Prop where
  quotient_eq : q = truncate (a.value / b.value)
  sum_eq : a.value = q * b.value + r.value
  abs_lt : |r.value| < |b.value|
  sign_eq : r.value = 0 ∨ SignType.sign r.value = SignType.sign a.value

/-- At a scale that both have, quotient and remainder are those of integers. -/
theorem quotientRemainder_atScale (a : Decimal) {b : Decimal} (h : b.value ≠ 0) :
    QuotientRemainder a b
      ((a.atScale (commonScale a b)).tdiv (b.atScale (commonScale a b)))
      (trim ⟨(a.atScale (commonScale a b)).tmod (b.atScale (commonScale a b)),
        commonScale a b⟩) := by
  have hy : b.atScale (commonScale a b) ≠ 0 := mt (atScale_eq_zero_iff b _).mp h
  have hquotient := value_div_value a b
  have ha := value_left a b
  have hb := value_right a b
  generalize a.atScale (commonScale a b) = x at *
  generalize b.atScale (commonScale a b) = y at *
  have hr : (trim ⟨x.tmod y, commonScale a b⟩).value = (x.tmod y : ℚ) / 10 ^ commonScale a b :=
    value_trim _
  have hpow : (0 : ℚ) < 10 ^ commonScale a b := by positivity
  constructor
  case quotient_eq => rw [hquotient, truncate_div]
  case sum_eq =>
    rw [ha, hb, hr]
    calc (x : ℚ) / 10 ^ commonScale a b
        = ((x.tmod y + y * x.tdiv y : ℤ) : ℚ) / 10 ^ commonScale a b := by
          rw [Int.tmod_add_mul_tdiv]
      _ = x.tdiv y * (y / 10 ^ commonScale a b) + x.tmod y / 10 ^ commonScale a b := by
          push_cast
          ring
  case abs_lt =>
    rw [hb, hr, abs_div, abs_div, abs_of_pos hpow, div_lt_div_iff_of_pos_right hpow]
    exact_mod_cast abs_tmod_lt x hy
  case sign_eq =>
    rw [ha, hr, sign_div_pow_ten, sign_div_pow_ten]
    by_cases hzero : x.tmod y = 0
    · exact .inl (by rw [hzero, Int.cast_zero, zero_div])
    · exact .inr (sign_tmod_eq hzero)

/-- Nothing is divided by zero. -/
theorem quotient_eq_error {a b : Decimal} (h : b.value = 0) :
    quotient a b = .error .divisionByZero :=
  if_pos ((atScale_eq_zero_iff b _).mpr h)

/-- Nothing is left over from a division by zero. -/
theorem remainder_eq_error {a b : Decimal} (h : b.value = 0) :
    remainder a b = .error .divisionByZero := by
  rw [remainder, Integer.remainder, if_pos ((atScale_eq_zero_iff b _).mpr h)]
  rfl

/-- Any other division has a quotient and a remainder. -/
theorem quotient_remainder_eq_ok {a b : Decimal} (h : b.value ≠ 0) :
    ∃ q r, quotient a b = .ok q ∧ remainder a b = .ok r ∧ QuotientRemainder a b q r := by
  have hy : b.atScale (commonScale a b) ≠ 0 := mt (atScale_eq_zero_iff b _).mp h
  refine ⟨_, _, if_neg hy, ?_, quotientRemainder_atScale a h⟩
  rw [remainder, Integer.remainder, if_neg hy]
  rfl

/-- Division with remainder. Both operations fail for a divisor of zero, and only for that. -/
theorem quotient_remainder (a b : Decimal) :
    (b.value = 0 ↔ quotient a b = .error .divisionByZero) ∧
      (b.value = 0 ↔ remainder a b = .error .divisionByZero) ∧
      (b.value ≠ 0 ↔
        ∃ q r, quotient a b = .ok q ∧ remainder a b = .ok r ∧ QuotientRemainder a b q r) := by
  by_cases h : b.value = 0
  · simp [h, quotient_eq_error (a := a) h, remainder_eq_error (a := a) h]
  · obtain ⟨q, r, hq, hr, hlaws⟩ := quotient_remainder_eq_ok (a := a) h
    exact ⟨iff_of_false h (by simp [hq]), iff_of_false h (by simp [hr]),
      iff_of_true h ⟨q, r, hq, hr, hlaws⟩⟩

example : remainder ⟨-75, 1⟩ ⟨2, 0⟩ = .ok ⟨-15, 1⟩ := rfl

end Decimal

end XPath
