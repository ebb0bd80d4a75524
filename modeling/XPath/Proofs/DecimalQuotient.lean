import Mathlib.Data.Rat.Floor
import Mathlib.Tactic.LinearCombination
import XPath.Proofs.DecimalValue

/-!
# Long division of decimals

At a common scale the quotient of two decimals is that of two integers. Long division finds its
digits one by one: after `k` of them it holds the integer quotient and remainder of the dividend
with `k` zeros appended, because one more zero moves both on by one digit (`tdiv_tmod_mul_ten`). It
stops at the places that are asked for, or once nothing is left over, when all digits to come are
zero (`Decimal.nextDigits_eq`).

The integer quotient is the fraction with what is behind the point cut off (`truncate_div`), so the
result is the exact quotient cut off after the last place that is asked for
(`Decimal.div_truncates`).
-/

namespace XPath

/-! ## Cutting off a fraction -/

/-- The integer part of a number: the next integer toward zero. -/
def truncate (x : ℚ) : ℤ := if 0 ≤ x then ⌊x⌋ else ⌈x⌉

/-- Cutting off a fraction does not depend on the sign. -/
theorem truncate_neg (x : ℚ) : truncate (-x) = -truncate x := by
  unfold truncate
  rcases lt_trichotomy x 0 with hx | rfl | hx
  · rw [if_pos (by linarith), if_neg (not_le.mpr hx), Int.floor_neg]
  · simp
  · rw [if_neg (by linarith), if_pos hx.le, Int.ceil_neg]

/-- Integer division cuts off the fraction. -/
theorem truncate_div (a b : ℤ) : truncate (a / b) = a.tdiv b := by
  -- The signs come out on both sides, and without signs it is the floor.
  have hnat (m n : ℕ) : truncate ((m : ℤ) / (n : ℤ)) = (m : ℤ).tdiv n := by
    have hnonneg : (0 : ℚ) ≤ (m : ℤ) / (n : ℤ) := by positivity
    rw [truncate, if_pos hnonneg, Int.tdiv_eq_ediv_of_nonneg (Int.natCast_nonneg m)]
    exact Rat.floor_intCast_div_natCast m n
  have hdividend (n : ℕ) : truncate (a / (n : ℤ)) = a.tdiv n := by
    obtain ⟨m, rfl | rfl⟩ := a.eq_nat_or_neg
    · exact hnat m n
    · rw [Int.cast_neg, neg_div, truncate_neg, hnat, Int.neg_tdiv]
  obtain ⟨n, rfl | rfl⟩ := b.eq_nat_or_neg
  · exact hdividend n
  · rw [Int.cast_neg, div_neg, truncate_neg, hdividend, Int.tdiv_neg]

/-! ## One more digit -/

/-- With a zero appended to the dividend, the quotient has one more digit. -/
theorem tdiv_tmod_mul_ten (a : ℤ) {b : ℤ} (hb : b ≠ 0) :
    (a * 10).tdiv b = a.tdiv b * 10 + (a.tmod b * 10).tdiv b ∧
      (a * 10).tmod b = (a.tmod b * 10).tmod b := by
  have hnat (m : ℕ) : ((m : ℤ) * 10).tdiv b = (m : ℤ).tdiv b * 10 + ((m : ℤ).tmod b * 10).tdiv b ∧
      ((m : ℤ) * 10).tmod b = ((m : ℤ).tmod b * 10).tmod b := by
    have hm := Int.tmod_add_mul_tdiv m b
    have hr := Int.tmod_add_mul_tdiv ((m : ℤ).tmod b * 10) b
    have hnonneg := Int.tmod_nonneg b (Int.natCast_nonneg m)
    refine (Int.tdiv_tmod_unique (by omega) hb).mpr ⟨?_, Int.tmod_nonneg b (by omega), ?_⟩
    · linear_combination hr + 10 * hm
    · have hlt := Nat.mod_lt ((m : ℤ).tmod b * 10).natAbs (Int.natAbs_pos.mpr hb)
      rw [← Int.natAbs_tmod] at hlt
      omega
  obtain ⟨m, rfl | rfl⟩ := a.eq_nat_or_neg
  · exact hnat m
  · obtain ⟨hdiv, hmod⟩ := hnat m
    simp only [Int.neg_mul, Int.neg_tdiv, Int.neg_tmod, hdiv, hmod, Int.neg_add, and_self]

namespace Decimal

/-- Long division from the digit `k` on. All digits that are asked for are found, or nothing is left
over. -/
theorem nextDigits_eq (x : ℤ) {y : ℤ} (hy : y ≠ 0) (places k : ℕ) :
    ∃ l, k ≤ l ∧ l ≤ k + places ∧ (l = k + places ∨ (x * 10 ^ l).tmod y = 0) ∧
      nextDigits y places ((x * 10 ^ k).tdiv y) ((x * 10 ^ k).tmod y) k =
        ⟨(x * 10 ^ l).tdiv y, l⟩ := by
  induction places generalizing k with
  | zero => exact ⟨k, le_rfl, le_rfl, .inl rfl, rfl⟩
  | succ places ih =>
    rw [nextDigits]
    split
    next hzero => exact ⟨k, le_rfl, Nat.le_add_right .., .inr hzero, rfl⟩
    next =>
      obtain ⟨hdiv, hmod⟩ := tdiv_tmod_mul_ten (x * 10 ^ k) hy
      rw [← hdiv, ← hmod, mul_assoc, ← pow_succ]
      obtain ⟨l, hk, hl, hend, hdigits⟩ := ih (k + 1)
      exact ⟨l, by omega, by omega, hend.imp_left (by omega), hdigits⟩

/-- Where nothing is left over, the digits to come are zero. -/
theorem value_tdiv_of_tmod_eq_zero {x y : ℤ} (hy : y ≠ 0) {l : ℕ} (h : (x * 10 ^ l).tmod y = 0)
    (k : ℕ) : (⟨(x * 10 ^ (l + k)).tdiv y, l + k⟩ : Decimal).value =
      (⟨(x * 10 ^ l).tdiv y, l⟩ : Decimal).value := by
  have hx := Int.tmod_add_mul_tdiv (x * 10 ^ l) y
  rw [h, zero_add] at hx
  rw [pow_add, ← mul_assoc, ← hx, Int.mul_tdiv_cancel_left _ hy, mul_assoc,
    Int.mul_tdiv_cancel_left _ hy]
  exact value_mul_pow _ k l

/-- The quotient of two integers, cut off after so many places. -/
theorem nextDigits_cut (x : ℤ) {y : ℤ} (hy : y ≠ 0) (places : ℕ) :
    (nextDigits y places (x.tdiv y) (x.tmod y) 0).value =
        truncate (x / y * 10 ^ places) / 10 ^ places ∧
      (nextDigits y places (x.tdiv y) (x.tmod y) 0).scale ≤ places := by
  have htruncate : truncate (x / y * 10 ^ places) = (x * 10 ^ places).tdiv y := by
    rw [← truncate_div, div_mul_eq_mul_div]
    push_cast
    rfl
  obtain ⟨l, -, hl, hend, hdigits⟩ := nextDigits_eq x hy places 0
  rw [pow_zero, mul_one] at hdigits
  rw [Nat.zero_add] at hl hend
  rw [hdigits, htruncate]
  refine ⟨?_, hl⟩
  obtain rfl | hzero := hend
  · rfl
  · obtain ⟨k, rfl⟩ := Nat.exists_eq_add_of_le hl
    exact (value_tdiv_of_tmod_eq_zero hy hzero k).symm

/-! ## The quotient -/

/-- A decimal is zero if its digits at any scale are. -/
theorem atScale_eq_zero_iff (d : Decimal) (scale : Nat) : d.atScale scale = 0 ↔ d.value = 0 := by
  rw [atScale, mul_eq_zero, value, div_eq_zero_iff, Int.cast_eq_zero]
  exact (or_iff_left (by positivity)).trans (or_iff_left (by positivity)).symm

/-- At a common scale the powers of ten cancel. -/
theorem value_div_value (a b : Decimal) :
    a.value / b.value = a.atScale (commonScale a b) / b.atScale (commonScale a b) := by
  rw [value_left a b, value_right a b]
  exact div_div_div_cancel_right₀ (by positivity) _ _

/-- A quotient `q` that is cut off after so many places. -/
structure CutQuotient (a b : Decimal) (places : Nat) (q : Decimal) : Prop where
  value_eq : q.value = truncate (a.value / b.value * 10 ^ places) / 10 ^ places
  scale_le : q.scale ≤ places
  trimmed : q.Trimmed

/-- Nothing is divided by zero. -/
theorem div_eq_error {a b : Decimal} (h : b.value = 0) (places : Option Nat) :
    div a b places = .error .divisionByZero :=
  if_pos ((atScale_eq_zero_iff b _).mpr h)

/-- Any other quotient is cut off at its places. -/
theorem div_eq_ok {a b : Decimal} (h : b.value ≠ 0) (places : Option Nat) :
    ∃ q, div a b places = .ok q ∧
      CutQuotient a b (places.getD (max (max a.scale b.scale) defaultPlaces)) q := by
  have hy : b.atScale (commonScale a b) ≠ 0 := mt (atScale_eq_zero_iff b _).mp h
  obtain ⟨hvalue, hscale⟩ := nextDigits_cut (a.atScale (commonScale a b)) hy
    (places.getD (max (commonScale a b) defaultPlaces))
  refine ⟨_, if_neg hy, ?_, ?_, trimmed_trim _⟩
  · rw [value_trim, hvalue, value_div_value]
    rfl
  · exact Nat.le_trans (Nat.sub_le _ _) hscale

/-- Division is exact up to the places that are asked for, and cuts off what comes after them. If
none are asked for, they are those of the longer operand, and no fewer than 24. Only a divisor of
zero fails. -/
theorem div_truncates (a b : Decimal) (places : Option Nat) :
    (b.value = 0 ↔ div a b places = .error .divisionByZero) ∧
      (b.value ≠ 0 ↔ ∃ q, div a b places = .ok q ∧
        CutQuotient a b (places.getD (max (max a.scale b.scale) 24)) q) := by
  by_cases h : b.value = 0
  · have herror := div_eq_error (a := a) h places
    simp [h, herror]
  · obtain ⟨q, hq, hcut⟩ := div_eq_ok (a := a) h places
    exact ⟨iff_of_false h (by simp [hq]), iff_of_true h ⟨q, hq, hcut⟩⟩

example : div ⟨-20, 1⟩ ⟨3, 0⟩ (some 5) = .ok ⟨-66666, 5⟩ := rfl

end Decimal

end XPath
