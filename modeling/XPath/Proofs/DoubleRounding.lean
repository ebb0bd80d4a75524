import Mathlib.Tactic.Linarith
import XPath.Proofs.Nearest

/-!
# The nearest double

Which double a number is rounded to is said here without rounding (`Double.IsNearest`): none is
nearer, and of two that are equally near it is the one whose last bit is zero. Infinity stands at
`2 ^ 1024`, where the next double would be.

Around a number the doubles lie on a grid, whose spacing is fixed by the number (`Double.spacing`).
Doubles of a larger exponent lie on it as well, and those of a smaller one lie below the power of
two under the number. So it is enough to round to the nearest point of the grid
(`Double.isNearest_ofRatio`), and this is what decimal digits are read as, however many they are
(`Double.isNearest_ofScientific`).
-/

namespace XPath.Double

/-! ## Nearest doubles -/

/-- Rounded to the nearest double, the number `q` is `x`. The values are those of the magnitudes,
that of infinity being the one the next double would have. -/
structure IsNearest (q : ℚ) (x : Double) : Prop where
  not_negative : x.negative = false
  le_infinity : x.magnitude ≤ infinityMagnitude
  le : ∀ y : Double, y.magnitude ≤ infinityMagnitude → |x.value - q| ≤ |y.value - q|
  even : ∀ y : Double, y.magnitude ≤ infinityMagnitude → |x.value - q| = |y.value - q| →
    y.magnitude = x.magnitude ∨ x.magnitude % 2 = 0

variable {x y : Double} {q : ℚ}

/-- A double above the smallest spacing has all of its bits. -/
theorem le_value (h : -1074 < x.exponent) : 2 ^ (x.exponent + 52) ≤ x.value := by
  have hle : 2 ^ 52 ≤ x.significand := x.le_significand_or.resolve_right h.ne'
  have hle : (2 : ℚ) ^ 52 ≤ x.significand := by exact_mod_cast hle
  exact (two_zpow_add _ 52).trans_le (mul_le_mul_of_nonneg_right hle (by positivity))

/-- Magnitudes are ordered as their values are. -/
theorem value_lt_value (h : x.magnitude < y.magnitude) : x.value < y.value := by
  have hx := x.magnitude_eq
  have hy := y.magnitude_eq
  have hxe := x.le_exponent
  have hye := y.le_exponent
  have hxs := x.significand_lt
  have hys := y.significand_lt
  have hxl := x.le_significand_or
  have hyl := y.le_significand_or
  obtain he | he : x.exponent = y.exponent ∨ x.exponent < y.exponent := by omega
  · have hs : x.significand < y.significand := by
      rw [he] at hx
      omega
    rw [value, value, he]
    exact mul_lt_mul_of_pos_right (by exact_mod_cast hs) (by positivity)
  · calc x.value < 2 ^ (x.exponent + 53) := x.value_lt
      _ ≤ 2 ^ (y.exponent + 52) := zpow_le_zpow_right₀ one_le_two (by omega)
      _ ≤ y.value := le_value (by omega)

/-- Two doubles of one value have the same bits, apart from the sign. -/
theorem magnitude_eq_of_value (h : x.value = y.value) : x.magnitude = y.magnitude := by
  obtain hlt | heq | hlt := lt_trichotomy x.magnitude y.magnitude
  · exact absurd h (value_lt_value hlt).ne
  · exact heq
  · exact absurd h (value_lt_value hlt).ne'

/-- Doubles are ordered as their bits are. -/
theorem value_le_value (h : x.magnitude ≤ y.magnitude) : x.value ≤ y.value := by
  obtain hlt | heq := h.lt_or_eq
  · exact (value_lt_value hlt).le
  · rw [value, value, significand, significand, exponent, exponent, heq]

/-- There is one nearest double: between two of them that are equally near stands one that is
nearer, unless they are neighbours, and then one of them is odd. -/
theorem IsNearest.unique (hx : IsNearest q x) (hy : IsNearest q y) : x = y := by
  have hnot {x y : Double} (hx : IsNearest q x) (hy : IsNearest q y) :
      ¬ x.magnitude < y.magnitude := by
    intro hlt
    have hdist := le_antisymm (hx.le y hy.le_infinity) (hy.le x hx.le_infinity)
    have hxeven := (hx.even y hy.le_infinity hdist).resolve_left hlt.ne'
    have hyeven := (hy.even x hx.le_infinity hdist.symm).resolve_left hlt.ne
    have hymax := y.magnitude_lt
    have hyinf := hy.le_infinity
    let z : Double := ⟨false, x.magnitude + 1, by omega⟩
    have hxz : x.value < z.value := value_lt_value (Nat.lt_succ_self _)
    have hzy : z.value < y.value := value_lt_value (show x.magnitude + 1 < y.magnitude by omega)
    have hz := hx.le z (show x.magnitude + 1 ≤ infinityMagnitude by omega)
    -- The number is in the middle, so that it is nearer to whatever stands between both.
    have hmiddle : x.value - q = -(y.value - q) :=
      (abs_eq_abs.mp hdist).resolve_left fun heq => by linarith
    rw [abs_of_neg (a := x.value - q) (by linarith), le_abs] at hz
    rcases hz with hz | hz <;> linarith
  have hmagnitude : x.magnitude = y.magnitude := by
    have := hnot hx hy
    have := hnot hy hx
    omega
  have hx := hx.not_negative
  have hy := hy.not_negative
  obtain ⟨_, _, _⟩ := x
  obtain ⟨_, _, _⟩ := y
  obtain rfl := hmagnitude
  obtain rfl := hx
  obtain rfl := hy
  rfl

/-! ## The grid -/

/-- The double at a point of the grid of spacing `2 ^ e`. A carry out of the significand makes the
exponent larger. -/
theorem value_of_magnitude {e : ℤ} {m : ℕ} (he : -1074 ≤ e) (hm : m ≤ 2 ^ 53)
    (hl : 2 ^ 52 ≤ m ∨ e = -1074) (hx : x.magnitude = (e + 1074).toNat * 2 ^ 52 + m) :
    x.value = m * 2 ^ e := by
  obtain hm | rfl := hm.lt_or_eq
  · obtain ⟨hs, he⟩ : x.significand = m ∧ x.exponent = e := by
      unfold significand exponent
      split <;> omega
    rw [value, hs, he]
  · obtain ⟨hs, he⟩ : x.significand = 2 ^ 52 ∧ x.exponent = e + 1 := by
      unfold significand exponent
      split <;> omega
    rw [value, hs, he, zpow_add₀ two_ne_zero]
    push_cast
    ring

/-- What a quotient is above its whole part is compared as the remainder is. -/
theorem remainder_spec (num : ℕ) {den : ℕ} (hd : 0 < den) {a : ℚ}
    (ha : (num : ℚ) / den - (num / den : ℕ) = a) :
    0 ≤ a ∧ a < 1 ∧ (2 * (num % den) < den ↔ a < 1 / 2) ∧ (den < 2 * (num % den) ↔ 1 / 2 < a) := by
  have hd' : (0 : ℚ) < den := by exact_mod_cast hd
  have hrest : a * den = (num % den : ℕ) := by
    have hdiv : (den : ℚ) * (num / den : ℕ) + (num % den : ℕ) = num := by
      exact_mod_cast Nat.div_add_mod num den
    rw [← ha, sub_mul, div_mul_cancel₀ _ hd'.ne']
    linarith
  refine ⟨?_, ?_, ?_, ?_⟩
  · rw [← mul_nonneg_iff_of_pos_right hd', hrest]
    exact Nat.cast_nonneg _
  · rw [← mul_lt_mul_iff_left₀ hd', hrest, one_mul]
    exact_mod_cast Nat.mod_lt num hd
  · rw [lt_div_iff₀ two_pos, ← mul_lt_mul_iff_left₀ hd', mul_right_comm, hrest, mul_comm, one_mul]
    exact_mod_cast Iff.rfl
  · rw [div_lt_iff₀ two_pos, ← mul_lt_mul_iff_left₀ hd', mul_right_comm, hrest, mul_comm, one_mul]
    exact_mod_cast Iff.rfl

/-- The quotient is off by a half at most, and then it is even. -/
theorem nearestQuotient_error (num : ℕ) {den : ℕ} (hd : 0 < den) :
    |(nearestQuotient num den : ℚ) - num / den| ≤ 1 / 2 ∧
      (|(nearestQuotient num den : ℚ) - num / den| = 1 / 2 → nearestQuotient num den % 2 = 0) := by
  generalize ha : (num : ℚ) / den - (num / den : ℕ) = a
  obtain ⟨hnonneg, hlt, hlow, hhigh⟩ := remainder_spec num hd ha
  have hdist (k : ℕ) : |((num / den + k : ℕ) : ℚ) - num / den| = |k - a| := by
    rw [← ha]
    push_cast
    ring_nf
  unfold nearestQuotient
  dsimp only
  split
  next h =>
    have h := hlow.mp h
    have habs : |((0 : ℕ) : ℚ) - a| = a := by
      rw [Nat.cast_zero, zero_sub, abs_neg, abs_of_nonneg hnonneg]
    have := hdist 0
    rw [Nat.add_zero, habs] at this
    rw [this]
    exact ⟨h.le, fun heq => absurd heq h.ne⟩
  next hl =>
  split
  next h =>
    have h := hhigh.mp h
    have habs : |((1 : ℕ) : ℚ) - a| = 1 - a := by rw [Nat.cast_one, abs_of_nonneg (by linarith)]
    rw [hdist 1, habs]
    exact ⟨by linarith, fun heq => absurd heq (by linarith)⟩
  next hh =>
    have ha : a = 1 / 2 := le_antisymm (not_lt.mp (mt hhigh.mpr hh)) (not_lt.mp (mt hlow.mpr hl))
    have habs : |((num / den % 2 : ℕ) : ℚ) - a| = 1 / 2 := by
      rw [ha]
      obtain h | h := Nat.mod_two_eq_zero_or_one (num / den) <;> rw [h] <;> norm_num
    rw [hdist, habs]
    exact ⟨le_rfl, fun _ => by omega⟩

/-- Rounding does not go above an integer that the number is below. -/
theorem le_of_error {m k : ℕ} {a : ℚ} (h : |m - a| ≤ 1 / 2) (ha : a < k) : m ≤ k := by
  have hle := (abs_le.mp h).2
  have hlt : (m : ℚ) < (k + 1 : ℕ) := by
    push_cast
    linarith
  exact Nat.lt_succ_iff.mp (by exact_mod_cast hlt)

/-- Rounding does not go below an integer that the number reaches. -/
theorem ge_of_error {m k : ℕ} {a : ℚ} (h : |m - a| ≤ 1 / 2) (ha : k ≤ a) : k ≤ m := by
  have hge := (abs_le.mp h).1
  have hlt : (k : ℚ) < (m + 1 : ℕ) := by
    push_cast
    linarith
  exact Nat.lt_succ_iff.mp (by exact_mod_cast hlt)

/-- Whatever is at most a half away is nearest among the integers. -/
theorem nearest_of_error {m : ℕ} {a : ℚ} (h : |m - a| ≤ 1 / 2)
    (heven : |m - a| = 1 / 2 → m % 2 = 0) (k : ℕ) :
    |m - a| ≤ |k - a| ∧ (|m - a| = |k - a| → k = m ∨ m % 2 = 0) := by
  by_cases hk : k = m
  · exact ⟨by rw [hk], fun _ => .inl hk⟩
  have hone : (1 : ℚ) ≤ |(m : ℚ) - k| := by
    have : (1 : ℤ) ≤ |(m : ℤ) - k| := Int.one_le_abs (by omega)
    exact_mod_cast this
  have htriangle : |(m : ℚ) - k| ≤ |m - a| + |k - a| := by
    rw [abs_sub_comm (k : ℚ)]
    exact abs_sub_le _ _ _
  exact ⟨by linarith, fun heq => .inr (heven (by linarith))⟩

/-- A double lies on the grid of spacing `2 ^ e`, or below the power of two under the number. -/
theorem on_grid_or_lt {e : ℤ} (y : Double) (hq : e = -1074 ∨ 2 ^ (e + 52) ≤ q) :
    (∃ k : ℕ, y.value = k * 2 ^ e) ∨ y.value < 2 ^ (e + 52) ∧ 2 ^ (e + 52) ≤ q := by
  obtain he | he := le_or_gt e y.exponent
  · refine .inl ⟨y.significand * 2 ^ (y.exponent - e).toNat, ?_⟩
    have hsplit : y.exponent = (y.exponent - e).toNat + e := by omega
    rw [value]
    conv_lhs => rw [hsplit, zpow_add₀ two_ne_zero, zpow_natCast, ← mul_assoc]
    push_cast
    rfl
  · have hmin := y.le_exponent
    refine .inr ⟨y.value_lt.trans_le (zpow_le_zpow_right₀ one_le_two (by omega)), ?_⟩
    exact hq.resolve_left (by omega)

/-- The nearest point of the grid is the nearest double. -/
theorem isNearest_of_grid {e : ℤ} {m : ℕ} (hnegative : x.negative = false)
    (hmax : x.magnitude ≤ infinityMagnitude) (hvalue : x.value = m * 2 ^ e)
    (hparity : x.magnitude % 2 = m % 2) (hq : e = -1074 ∨ 2 ^ (e + 52) ≤ q)
    (herror : |m - q / 2 ^ e| ≤ 1 / 2) (heven : |m - q / 2 ^ e| = 1 / 2 → m % 2 = 0) :
    IsNearest q x := by
  have hpos : (0 : ℚ) < 2 ^ e := by positivity
  have hdist (k : ℕ) : |k * 2 ^ e - q| = |k - q / 2 ^ e| * 2 ^ e := by
    rw [← abs_of_pos hpos, ← abs_mul, abs_of_pos hpos, sub_mul, div_mul_cancel₀ _ hpos.ne']
  have hnearest (k : ℕ) : |x.value - q| ≤ |k * 2 ^ e - q| := by
    rw [hvalue, hdist, hdist]
    exact mul_le_mul_of_nonneg_right (nearest_of_error herror heven k).1 hpos.le
  have hbelow (y : Double) (hy : y.value < 2 ^ (e + 52)) (hq : 2 ^ (e + 52) ≤ q) :
      |x.value - q| < |y.value - q| := by
    have h := hnearest (2 ^ 52)
    have hpower : ((2 ^ 52 : ℕ) : ℚ) * 2 ^ e = 2 ^ (e + 52) := by
      rw [Nat.cast_pow]
      exact (two_zpow_add e 52).symm
    rw [hpower, abs_of_nonpos (a := 2 ^ (e + 52) - q) (by linarith)] at h
    rw [abs_of_neg (a := y.value - q) (by linarith)]
    linarith
  refine ⟨hnegative, hmax, fun y _ => ?_, fun y _ htie => ?_⟩
  · obtain ⟨k, hk⟩ | ⟨hlt, hle⟩ := on_grid_or_lt y hq
    · exact hk ▸ hnearest k
    · exact (hbelow y hlt hle).le
  · obtain ⟨k, hk⟩ | ⟨hlt, hle⟩ := on_grid_or_lt y hq
    · rw [hvalue, hk, hdist, hdist, mul_left_inj' hpos.ne'] at htie
      rw [hparity]
      refine ((nearest_of_error herror heven k).2 htie).imp_left fun hkm => ?_
      exact magnitude_eq_of_value (by rw [hk, hkm, hvalue])
    · exact absurd htie (hbelow y hlt hle).ne

/-! ## Rounding -/

variable {num den : ℕ}

/-- Infinity stands where the next double would be. -/
theorem value_infinity (negative : Bool) : (infinity negative).value = 2 ^ (1024 : ℤ) := by
  have hvalue : (infinity negative).value = (2 ^ 53 : ℕ) * 2 ^ (971 : ℤ) :=
    value_of_magnitude (by decide) le_rfl (.inl (by decide)) rfl
  have hpower : ((2 ^ 53 : ℕ) : ℚ) = 2 ^ (53 : ℤ) := by norm_cast
  rw [hvalue, hpower, ← zpow_add₀ two_ne_zero]
  rfl

/-- A number beyond all doubles. -/
theorem isNearest_infinity (hq : 2 ^ (1024 : ℤ) ≤ q) : IsNearest q (infinity false) := by
  refine ⟨rfl, le_rfl, fun y hy => ?_, fun _ _ _ => .inr (by decide)⟩
  have hle : y.value ≤ (infinity false).value := value_le_value hy
  rw [value_infinity] at hle ⊢
  rw [abs_of_nonpos (by linarith), abs_of_nonpos (by linarith)]
  linarith

/-- A number so small that no double is nearer than zero. -/
theorem isNearest_zero (hnonneg : 0 ≤ q) (hq : q ≤ 2 ^ (-1075 : ℤ)) : IsNearest q (zero false) := by
  refine ⟨rfl, Nat.zero_le _, fun y _ => ?_, fun _ _ _ => .inr rfl⟩
  have hzero : (zero false).value = 0 := zero_mul _
  rw [hzero, zero_sub, abs_neg, abs_of_nonneg hnonneg]
  by_cases hy : y.significand = 0
  · rw [value, hy, Nat.cast_zero, zero_mul, zero_sub, abs_neg]
    exact le_abs_self q
  · have hone : (1 : ℚ) ≤ y.significand := by exact_mod_cast Nat.one_le_iff_ne_zero.mpr hy
    have hle : (2 : ℚ) ^ (-1075 : ℤ) * 2 ≤ y.value := by
      calc (2 : ℚ) ^ (-1075 : ℤ) * 2 = 2 ^ (-1074 : ℤ) := (zpow_add_one₀ two_ne_zero _).symm
        _ ≤ 2 ^ y.exponent := zpow_le_zpow_right₀ one_le_two y.le_exponent
        _ ≤ y.value := le_mul_of_one_le_left (by positivity) hone
    exact le_trans (by linarith) (le_abs_self _)

/-- The quotient that is rounded lies between `2 ^ 52` and `2 ^ 53`, and below that only where the
doubles are as dense as they can be. -/
theorem spacing_spec (hn : 0 < num) (hd : 0 < den) :
    -1074 ≤ spacing num den ∧ (num : ℚ) / den < 2 ^ (spacing num den + 53) ∧
      (spacing num den = -1074 ∨ 2 ^ (spacing num den + 52) ≤ (num : ℚ) / den) := by
  obtain ⟨hlower, hupper⟩ := floorLog2_spec hn hd
  unfold spacing
  refine ⟨le_max_right _ _, hupper.trans_le (zpow_le_zpow_right₀ one_le_two (by omega)), ?_⟩
  obtain h | h := le_or_gt (floorLog2 num den - 52) (-1074)
  · exact .inl (max_eq_right h)
  · rw [max_eq_left h.le, sub_add_cancel]
    exact .inr hlower

/-- The nearest point of the grid is a double, or is as far as infinity. -/
theorem isNearest_ofMagnitude {e : ℤ} {m : ℕ} (he : -1074 ≤ e) (hm : m ≤ 2 ^ 53)
    (hl : 2 ^ 52 ≤ m ∨ e = -1074) (hq : e = -1074 ∨ 2 ^ (e + 52) ≤ q)
    (herror : |m - q / 2 ^ e| ≤ 1 / 2) (heven : |m - q / 2 ^ e| = 1 / 2 → m % 2 = 0) :
    IsNearest q (ofMagnitude false ((e + 1074).toNat * 2 ^ 52 + m)) := by
  obtain hsmall | hlarge := le_or_gt e 971
  · have hmax : (e + 1074).toNat * 2 ^ 52 + m ≤ infinityMagnitude := by
      unfold infinityMagnitude
      omega
    have hmagnitude : (ofMagnitude false ((e + 1074).toNat * 2 ^ 52 + m)).magnitude =
        (e + 1074).toNat * 2 ^ 52 + m := min_eq_left hmax
    refine isNearest_of_grid rfl (hmagnitude.trans_le hmax)
      (value_of_magnitude he hm hl hmagnitude) ?_ hq herror heven
    rw [hmagnitude]
    omega
  · have hmin : infinityMagnitude ≤ (e + 1074).toNat * 2 ^ 52 + m := by
      unfold infinityMagnitude
      omega
    have hinfinity : ofMagnitude false ((e + 1074).toNat * 2 ^ 52 + m) = infinity false := by
      simp only [ofMagnitude, infinity, Double.mk.injEq, true_and]
      exact min_eq_right hmin
    rw [hinfinity]
    exact isNearest_infinity <| le_trans (zpow_le_zpow_right₀ one_le_two (by omega))
      (hq.resolve_left (by omega))

/-- A fraction is rounded to the nearest double. -/
theorem isNearest_ofRatio (num : ℕ) (hd : 0 < den) :
    IsNearest (num / den) (ofRatio false num den) := by
  unfold ofRatio
  split
  next hnum =>
    rw [hnum, Nat.cast_zero, zero_div]
    exact isNearest_zero le_rfl (by positivity)
  next hnum =>
  obtain ⟨hmin, hupper, hlower⟩ := spacing_spec (Nat.pos_of_ne_zero hnum) hd
  dsimp only
  generalize spacing num den = e at hmin hupper hlower ⊢
  have hpos : 0 < den * 2 ^ e.toNat := by positivity
  have hquot : ((num * 2 ^ (-e).toNat : ℕ) : ℚ) / (den * 2 ^ e.toNat : ℕ) = num / den / 2 ^ e := by
    rw [zpow_eq_div two_ne_zero e]
    push_cast
    rw [div_div_div_eq]
  obtain ⟨herror, heven⟩ := nearestQuotient_error (num * 2 ^ (-e).toNat) hpos
  rw [hquot] at herror heven
  have hpow : (0 : ℚ) < 2 ^ e := by positivity
  refine isNearest_ofMagnitude hmin (le_of_error herror ?_)
    (hlower.symm.imp_left fun hle => ge_of_error herror ?_) hlower herror heven
  · rw [div_lt_iff₀ hpow, Nat.cast_pow]
    exact hupper.trans_eq (two_zpow_add e 53)
  · rw [le_div_iff₀ hpow, Nat.cast_pow]
    exact (two_zpow_add e 52).symm.trans_le hle

/-- With so small an exponent a number is at most half of the smallest double. -/
theorem scientific_le_of_small {digits : ℕ} {exponent : ℤ}
    (h : digitCount digits + exponent ≤ -325) : (digits : ℚ) * 10 ^ exponent ≤ 2 ^ (-1075 : ℤ) := by
  have hpower : 2 ^ 1075 ≤ 10 ^ 325 := by decide +kernel
  calc (digits : ℚ) * 10 ^ exponent ≤ 10 ^ (digitCount digits + exponent) :=
        (scientific_lt digits exponent).le
    _ ≤ 10 ^ (-325 : ℤ) := zpow_le_zpow_right₀ (by norm_num) h
    _ ≤ 2 ^ (-1075 : ℤ) := by
        rw [zpow_neg, zpow_neg, inv_le_inv₀ (by positivity) (by positivity)]
        exact_mod_cast hpower

/-- With so large an exponent a number reaches infinity. -/
theorem le_scientific_of_large {digits : ℕ} {exponent : ℤ} (hdigits : 0 < digits)
    (h : 309 ≤ digitCount digits - 1 + exponent) :
    2 ^ (1024 : ℤ) ≤ (digits : ℚ) * 10 ^ exponent := by
  have hpower : 2 ^ 1024 ≤ 10 ^ 309 := by decide +kernel
  calc (2 : ℚ) ^ (1024 : ℤ) ≤ 10 ^ (309 : ℤ) := by exact_mod_cast hpower
    _ ≤ 10 ^ ((digitCount digits : ℤ) - 1 + exponent) := zpow_le_zpow_right₀ (by norm_num) h
    _ ≤ digits * 10 ^ exponent := le_scientific hdigits exponent

/-- Decimal digits are read as the nearest double, also where no power of ten is built. -/
theorem isNearest_ofScientific (digits : ℕ) (exponent : ℤ) :
    IsNearest (digits * 10 ^ exponent) (ofScientific false digits exponent) := by
  unfold ofScientific
  dsimp only
  split
  next h =>
    refine isNearest_zero (by positivity) ?_
    obtain rfl | h := h
    · rw [Nat.cast_zero, zero_mul]
      positivity
    · exact scientific_le_of_small (by omega)
  next h =>
  have hdigits : 0 < digits := Nat.pos_of_ne_zero (not_or.mp h).1
  split
  next h => exact isNearest_infinity (le_scientific_of_large hdigits (by omega))
  next =>
    have hquot : (digits : ℚ) * 10 ^ exponent =
        (digits * 10 ^ exponent.toNat : ℕ) / (10 ^ (-exponent).toNat : ℕ) := by
      rw [zpow_eq_div (by norm_num)]
      push_cast
      rw [mul_div_assoc]
    rw [hquot]
    exact isNearest_ofRatio _ (by positivity)

end XPath.Double
