import Mathlib.Algebra.Order.Field.Power
import Mathlib.Algebra.Order.Field.Rat
import Mathlib.Tactic.FieldSimp
import Mathlib.Tactic.Positivity
import Mathlib.Tactic.Ring
import XPath.Proofs.Numeral

/-!
# Doubles from exact numbers

Rounding leaves a number alone that is a double already. The exponent of the spacing at the value of
a finite double is the exponent of the double (`Double.spacing_eq`), so the quotient that is rounded
is its significand, with nothing left over (`Double.ofRatio_eq`).

The shortest decimal form of a double is one that is read back as it, by the test of the search, or
else shows all its digits. In both cases it denotes the double (`Double.ofScientific_shortest`).
-/

namespace XPath

/-- A power with any exponent is a fraction of two powers without sign. -/
theorem zpow_eq_div {b : ℚ} (hb : b ≠ 0) (e : ℤ) : b ^ e = b ^ e.toNat / b ^ (-e).toNat := by
  have he : e = (e.toNat : ℤ) - ((-e).toNat : ℤ) := by omega
  calc b ^ e = b ^ ((e.toNat : ℤ) - ((-e).toNat : ℤ)) := by rw [← he]
    _ = b ^ e.toNat / b ^ (-e).toNat := by rw [zpow_sub₀ hb, zpow_natCast, zpow_natCast]

namespace Double

/-! ## Binary logarithms -/

variable {num den : Nat}

/-- To compare a fraction with a power of two, multiply both sides. -/
theorem div_lt_two_zpow (hd : 0 < den) (k : Int) :
    (num : ℚ) / den < 2 ^ k ↔ num * 2 ^ (-k).toNat < den * 2 ^ k.toNat := by
  have hd' : (0 : ℚ) < den := by exact_mod_cast hd
  rw [zpow_eq_div two_ne_zero, div_lt_div_iff₀ hd' (by positivity), mul_comm (2 ^ k.toNat : ℚ)]
  norm_cast

/-- The logarithm is that of the power of two below the fraction. -/
theorem floorLog2_spec (hn : 0 < num) (hd : 0 < den) :
    (2 : ℚ) ^ floorLog2 num den ≤ num / den ∧ (num : ℚ) / den < 2 ^ (floorLog2 num den + 1) := by
  have hd' : (0 : ℚ) < den := by exact_mod_cast hd
  have h2 (k : ℤ) : (0 : ℚ) < 2 ^ k := by positivity
  have hadd (j k : ℤ) : (2 : ℚ) ^ (j + k) = 2 ^ j * 2 ^ k := zpow_add₀ two_ne_zero j k
  have hnum : (2 : ℚ) ^ (num.log2 : ℤ) ≤ num ∧ (num : ℚ) < 2 ^ ((num.log2 : ℤ) + 1) :=
    ⟨by exact_mod_cast Nat.log2_self_le (by omega), by exact_mod_cast Nat.lt_log2_self⟩
  have hden : (2 : ℚ) ^ (den.log2 : ℤ) ≤ den ∧ (den : ℚ) < 2 ^ ((den.log2 : ℤ) + 1) :=
    ⟨by exact_mod_cast Nat.log2_self_le (by omega), by exact_mod_cast Nat.lt_log2_self⟩
  generalize hk : (num.log2 : ℤ) - den.log2 = k
  have hupper : (num : ℚ) / den < 2 ^ (k + 1) := by
    rw [div_lt_iff₀ hd']
    calc (num : ℚ) < 2 ^ ((num.log2 : ℤ) + 1) := hnum.2
      _ = 2 ^ (k + 1) * 2 ^ (den.log2 : ℤ) := by rw [← hadd]; congr 1; omega
      _ ≤ 2 ^ (k + 1) * den := mul_le_mul_of_nonneg_left hden.1 (h2 _).le
  have hlower : (2 : ℚ) ^ (k - 1) ≤ num / den := by
    rw [le_div_iff₀ hd']
    calc (2 : ℚ) ^ (k - 1) * den ≤ 2 ^ (k - 1) * 2 ^ ((den.log2 : ℤ) + 1) :=
          mul_le_mul_of_nonneg_left hden.2.le (h2 _).le
      _ = 2 ^ (num.log2 : ℤ) := by rw [← hadd]; congr 1; omega
      _ ≤ num := hnum.1
  rw [floorLog2, hk]
  simp only [← div_lt_two_zpow hd]
  split
  next h => exact ⟨hlower, by rwa [sub_add_cancel]⟩
  next h => exact ⟨not_lt.mp h, hupper⟩

/-- No other power of two has the fraction between it and the next. -/
theorem floorLog2_eq {k : Int} (hn : 0 < num) (hd : 0 < den) (hl : (2 : ℚ) ^ k ≤ num / den)
    (hu : (num : ℚ) / den < 2 ^ (k + 1)) : floorLog2 num den = k := by
  obtain ⟨hl', hu'⟩ := floorLog2_spec hn hd
  have h1 : k < floorLog2 num den + 1 :=
    (zpow_lt_zpow_iff_right₀ one_lt_two).mp (hl.trans_lt hu')
  have h2 : floorLog2 num den < k + 1 :=
    (zpow_lt_zpow_iff_right₀ one_lt_two).mp (hl'.trans_lt hu)
  omega

/-! ## Finite doubles -/

/-- The magnitude of a finite double. -/
def value (x : Double) : ℚ := x.significand * 2 ^ x.exponent

variable {x : Double}

/-- A significand has 53 bits. -/
theorem significand_lt (x : Double) : x.significand < 2 ^ 53 := by
  unfold significand
  split <;> omega

/-- A double is subnormal or has a leading one. -/
theorem le_significand_or (x : Double) : 2 ^ 52 ≤ x.significand ∨ x.exponent = -1074 := by
  unfold significand exponent
  split
  next h => exact .inr (by omega)
  next h => exact .inl (by omega)

/-- No exponent is below that of the smallest double. -/
theorem le_exponent (x : Double) : -1074 ≤ x.exponent := by
  unfold exponent
  omega

/-- No finite double has a larger exponent. -/
theorem exponent_le (h : x.isFinite) : x.exponent ≤ 971 := by
  have hlt : x.magnitude < infinityMagnitude := by simpa [isFinite] using h
  unfold infinityMagnitude at hlt
  unfold exponent
  omega

theorem two_zpow_add (e : ℤ) (k : ℕ) : (2 : ℚ) ^ (e + k) = 2 ^ k * 2 ^ e := by
  rw [add_comm, zpow_add₀ two_ne_zero, zpow_natCast]

/-- A double is less than the next power of two above its significand. -/
theorem value_lt (x : Double) : x.value < 2 ^ (x.exponent + 53) := by
  have hlt : (x.significand : ℚ) < 2 ^ 53 := by exact_mod_cast x.significand_lt
  exact (mul_lt_mul_of_pos_right hlt (by positivity)).trans_eq (two_zpow_add _ 53).symm

/-- The bits are those of the exponent over the significand. -/
theorem magnitude_eq (x : Double) :
    (x.exponent + 1074).toNat * 2 ^ 52 + x.significand = x.magnitude := by
  unfold significand exponent
  split <;> omega

/-- Around a double the spacing is given by its exponent. -/
theorem spacing_eq (hn : 0 < num) (hd : 0 < den) (h : (num : ℚ) / den = x.value) :
    spacing num den = x.exponent := by
  have hlt : (x.significand : ℚ) < 2 ^ (53 : ℤ) := by exact_mod_cast x.significand_lt
  have hupper : (num : ℚ) / den < 2 ^ (x.exponent + 53) := by
    rw [h, value, add_comm, zpow_add₀ two_ne_zero]
    exact mul_lt_mul_of_pos_right hlt (by positivity)
  have hmin := x.le_exponent
  unfold spacing
  rcases x.le_significand_or with hl | he
  · have hle : (2 : ℚ) ^ (52 : ℤ) ≤ x.significand := by exact_mod_cast hl
    have hlower : (2 : ℚ) ^ (x.exponent + 52) ≤ num / den := by
      rw [h, value, add_comm, zpow_add₀ two_ne_zero]
      exact mul_le_mul_of_nonneg_right hle (by positivity)
    have hfloor : floorLog2 num den = x.exponent + 52 :=
      floorLog2_eq hn hd hlower (by rwa [add_assoc])
    omega
  · have hfloor : floorLog2 num den < x.exponent + 53 :=
      (zpow_lt_zpow_iff_right₀ one_lt_two).mp ((floorLog2_spec hn hd).1.trans_lt hupper)
    omega

/-- A quotient without remainder is not rounded. -/
theorem nearestQuotient_mul (n : Nat) (hd : 0 < den) : nearestQuotient (n * den) den = n := by
  simp [nearestQuotient, Nat.mul_div_cancel n hd, hd]

/-- The value of a finite double is rounded to the double. -/
theorem ofRatio_eq (hd : 0 < den) (hx : x.isFinite) (h : (num : ℚ) / den = x.value) :
    ofRatio x.negative num den = x := by
  have hlt : x.magnitude < infinityMagnitude := by simpa [isFinite] using hx
  have hd' : (den : ℚ) ≠ 0 := by exact_mod_cast hd.ne'
  have hext {m : Nat} (hm : m = x.magnitude) : ofMagnitude x.negative m = x := by
    subst hm
    obtain ⟨negative, magnitude, hmag⟩ := x
    simp only [ofMagnitude, Double.mk.injEq, true_and]
    exact Nat.min_eq_left hlt.le
  unfold ofRatio
  split
  next hnum =>
    have hzero : x.significand = 0 := by
      rw [hnum, Nat.cast_zero, zero_div, value] at h
      have hpow : (2 : ℚ) ^ x.exponent ≠ 0 := by positivity
      exact_mod_cast (mul_eq_zero.mp h.symm).resolve_right hpow
    have hmag : x.magnitude = 0 := by
      have := x.magnitude_eq
      have := x.le_significand_or
      omega
    exact (show zero x.negative = ofMagnitude x.negative 0 from rfl).trans (hext hmag.symm)
  next hnum =>
    have hn : 0 < num := Nat.pos_of_ne_zero hnum
    have hscaled : num * 2 ^ (-x.exponent).toNat =
        x.significand * (den * 2 ^ x.exponent.toNat) := by
      rw [value, zpow_eq_div two_ne_zero, div_eq_iff hd', mul_div_assoc', div_mul_eq_mul_div,
        eq_div_iff (by positivity)] at h
      have hcast : (num : ℚ) * 2 ^ (-x.exponent).toNat =
          x.significand * (den * 2 ^ x.exponent.toNat) := by
        rw [h]
        ring
      exact_mod_cast hcast
    have hpos : 0 < den * 2 ^ x.exponent.toNat := by positivity
    simp only [spacing_eq hn hd h, hscaled, nearestQuotient_mul _ hpos]
    exact hext x.magnitude_eq

end Double

/-! ## Decimal digits -/

/-- The number that the digits and the exponent are. -/
def Scientific.value (s : Scientific) : ℚ := s.digits * 10 ^ s.exponent

namespace Double

variable {x : Double}

/-- A number is less than the power of ten with one more digit. -/
theorem lt_pow_digitCount (n : Nat) : n < 10 ^ digitCount n := by
  rw [digitCount, ← String.length_toList, Nat.toList_repr]
  exact (Nat.length_toDigits_le_iff (by decide) Nat.length_toDigits_pos).mp (Nat.le_refl _)

/-- A number that is not zero reaches the power of ten with as many digits. -/
theorem pow_le_of_digitCount {n : Nat} (hn : 0 < n) : 10 ^ (digitCount n - 1) ≤ n := by
  rw [digitCount, ← String.length_toList, Nat.toList_repr]
  by_cases h : (Nat.toDigits 10 n).length - 1 = 0
  · rw [h]
    omega
  · by_contra hlt
    have := (Nat.length_toDigits_le_iff (b := 10) (by decide) (Nat.pos_of_ne_zero h)).mpr
      (not_le.mp hlt)
    omega

theorem lt_zpow_digitCount (n : Nat) : (n : ℚ) < 10 ^ (digitCount n : ℤ) := by
  exact_mod_cast lt_pow_digitCount n

theorem zpow_le_of_digitCount {n : Nat} (hn : 0 < n) :
    (10 : ℚ) ^ ((digitCount n : ℤ) - 1) ≤ n := by
  have hcount : 0 < digitCount n := by
    rw [digitCount, ← String.length_toList, Nat.toList_repr]
    exact Nat.length_toDigits_pos
  have := pow_le_of_digitCount hn
  rw [show (digitCount n : ℤ) - 1 = (digitCount n - 1 : ℕ) by omega]
  exact_mod_cast this

theorem ten_zpow_add (j k : ℤ) : (10 : ℚ) ^ (j + k) = 10 ^ j * 10 ^ k :=
  zpow_add₀ (by norm_num) j k

/-- How large the digits and the exponent may be at most. -/
theorem scientific_lt (digits : ℕ) (exponent : ℤ) :
    (digits : ℚ) * 10 ^ exponent < 10 ^ (digitCount digits + exponent) := by
  rw [ten_zpow_add]
  exact mul_lt_mul_of_pos_right (lt_zpow_digitCount digits) (by positivity)

/-- How large the digits and the exponent are at least. -/
theorem le_scientific {digits : ℕ} (hdigits : 0 < digits) (exponent : ℤ) :
    (10 : ℚ) ^ ((digitCount digits : ℤ) - 1 + exponent) ≤ digits * 10 ^ exponent := by
  rw [ten_zpow_add]
  exact mul_le_mul_of_nonneg_right (zpow_le_of_digitCount hdigits) (by positivity)

/-- The largest finite doubles have 309 digits. -/
theorem value_lt_ten_zpow (hx : x.isFinite) : x.value < 10 ^ (309 : ℤ) := by
  have hpower : 2 ^ 1024 < 10 ^ 309 := by decide +kernel
  have hexponent : x.exponent + 53 ≤ 1024 := by
    have := exponent_le hx
    omega
  calc x.value < 2 ^ (x.exponent + 53) := x.value_lt
    _ ≤ 2 ^ (1024 : ℤ) := zpow_le_zpow_right₀ one_le_two hexponent
    _ < 10 ^ (309 : ℤ) := by exact_mod_cast hpower

/-- No double but zero is this small. -/
theorem ten_zpow_lt_value (hx : 0 < x.value) : (10 : ℚ) ^ (-324 : ℤ) < x.value := by
  have hpower : 2 ^ 1074 < 10 ^ 324 := by decide +kernel
  have hsig : (1 : ℚ) ≤ x.significand := by
    have : x.significand ≠ 0 := by
      intro h0
      rw [value, h0, Nat.cast_zero, zero_mul] at hx
      exact lt_irrefl _ hx
    exact_mod_cast Nat.one_le_iff_ne_zero.mpr this
  calc (10 : ℚ) ^ (-324 : ℤ) < 2 ^ (-1074 : ℤ) := by
        rw [zpow_neg, zpow_neg, inv_lt_inv₀ (by positivity) (by positivity)]
        exact_mod_cast hpower
    _ ≤ 2 ^ x.exponent := zpow_le_zpow_right₀ one_le_two x.le_exponent
    _ ≤ x.significand * 2 ^ x.exponent := le_mul_of_one_le_left (by positivity) hsig

/-- The order of a number that a finite double has is in the range that is read digit by digit. -/
theorem order_bounds {s : Scientific} (hs : 0 < s.digits) (hx : x.isFinite)
    (h : s.value = x.value) :
    -324 ≤ digitCount s.digits + s.exponent ∧ digitCount s.digits + s.exponent ≤ 309 := by
  have hlow := le_scientific hs s.exponent
  have hpos : 0 < x.value := by
    rw [← h]
    exact lt_of_lt_of_le (by positivity) hlow
  have hlower : (10 : ℚ) ^ (-324 : ℤ) < 10 ^ (digitCount s.digits + s.exponent) :=
    (ten_zpow_lt_value hpos).trans (h ▸ scientific_lt s.digits s.exponent)
  have hupper : (10 : ℚ) ^ ((digitCount s.digits : ℤ) - 1 + s.exponent) < 10 ^ (309 : ℤ) :=
    hlow.trans_lt (h.trans_lt (value_lt_ten_zpow hx))
  have hl := (zpow_lt_zpow_iff_right₀ (by norm_num)).mp hlower
  have hu := (zpow_lt_zpow_iff_right₀ (by norm_num)).mp hupper
  omega

/-- Decimal digits that denote a finite double are read as it. -/
theorem ofScientific_eq {s : Scientific} (hs : 0 < s.digits) (hx : x.isFinite)
    (h : s.value = x.value) : ofScientific x.negative s.digits s.exponent = x := by
  obtain ⟨hl, hu⟩ := order_bounds hs hx h
  unfold ofScientific
  rw [if_neg (by omega), if_neg (by omega)]
  refine ofRatio_eq (by positivity) hx ?_
  rw [← h, Scientific.value, zpow_eq_div (by norm_num)]
  push_cast
  rw [mul_div_assoc]

/-! ## The shortest form -/

/-- Trimmed digits stand for the same number. -/
theorem value_trim (s : Scientific) : s.trim.value = s.value := by
  have hmul := Integer.trimZeros_mul_pow (digitCount s.digits) s.digits
  unfold Scientific.trim
  generalize Integer.trimZeros (digitCount s.digits) s.digits = kr at hmul ⊢
  obtain ⟨k, r⟩ := kr
  dsimp only at hmul ⊢
  split
  next hz => simp [Scientific.value, hz]
  next hz =>
    have hr : (r.toNat : ℤ) = r := by
      refine Int.toNat_of_nonneg ?_
      by_contra hneg
      have : r * 10 ^ k < 0 := mul_neg_of_neg_of_pos (not_le.mp hneg) (by positivity)
      omega
    have hq : ((r.toNat : ℕ) : ℚ) * 10 ^ k = s.digits := by
      rw [← hr] at hmul
      exact_mod_cast hmul
    rw [Scientific.value, Scientific.value, zpow_add₀ (by norm_num), zpow_natCast, ← hq]
    ring

/-- Every double has exact decimal digits. -/
theorem value_exactDigits (x : Double) : x.exactDigits.value = x.value := by
  rw [exactDigits, value_trim, Scientific.value, value]
  dsimp only
  generalize x.exponent = e
  have h10 : (10 : ℚ) ^ min e 0 = (2 ^ (-e).toNat * 5 ^ (-e).toNat)⁻¹ := by
    rw [← mul_pow, show min e 0 = -((-e).toNat : ℤ) by omega, zpow_neg, zpow_natCast]
    norm_num
  rw [h10, zpow_eq_div two_ne_zero e]
  push_cast
  field_simp

/-- Not all digits are zeros at the end, unless the number is zero. -/
theorem digits_trim_pos {s : Scientific} (hs : 0 < s.digits) : 0 < s.trim.digits := by
  have h := value_trim s
  by_contra hz
  have hz' : s.trim.digits = 0 := by omega
  rw [Scientific.value, hz', Nat.cast_zero, zero_mul, Scientific.value] at h
  have : (0 : ℚ) < s.digits := by exact_mod_cast hs
  have : (0 : ℚ) < s.digits * 10 ^ s.exponent := by positivity
  exact absurd h this.ne

/-- The digits that are written for a finite double are read as it. -/
theorem ofScientific_shortest (hx : x.isFinite) (hn : x.negative = false) :
    ofScientific false x.shortest.digits x.shortest.exponent = x := by
  unfold shortest
  split
  next hz =>
    obtain ⟨negative, magnitude, hlt⟩ := x
    obtain rfl : negative = false := hn
    obtain rfl : magnitude = 0 := by simpa [isZero] using hz
    rfl
  next hz =>
    have hpos : 0 < x.significand := by
      have : x.magnitude ≠ 0 := by simpa [isZero] using hz
      have := x.magnitude_eq
      have := x.le_significand_or
      omega
    cases hfind : ((List.range' 1 17).flatMap x.neighbours).find? x.isReadFrom with
    | none =>
      have hdigits : 0 < x.exactDigits.digits := digits_trim_pos (by positivity)
      rw [← hn]
      exact ofScientific_eq hdigits hx (value_exactDigits x)
    | some s =>
      have hread : (ofScientific false s.digits s.exponent).magnitude = x.magnitude := by
        simpa [isReadFrom] using List.find?_some hfind
      have hneg := (negative_ofScientific false s.digits s.exponent).trans hn.symm
      rw [Option.getD_some]
      generalize ofScientific false s.digits s.exponent = y at hread hneg
      obtain ⟨_, _, _⟩ := x
      obtain ⟨_, _, _⟩ := y
      obtain rfl := hread
      obtain rfl := hneg
      rfl

end Double

end XPath
