import Mathlib.Data.Rat.Floor
import Mathlib.Tactic.FieldSimp
import XPath.Proofs.DecimalQuotient
import XPath.Proofs.DecimalText

/-!
# Rounding of decimals

An integer over a power of ten is its floored quotient and a fraction, the floored remainder over
the power (`div_pow_ten_eq`). The fraction alone decides the rounding: with a half added the next
integer is reached if the fraction is a half at least (`Decimal.dropDigits_eq`), and the next one
above is another one unless the fraction is zero (`ceil_div_pow_ten`).

To round a decimal to some places is to round the number over the power of ten
(`Decimal.rounded_dropDigits`), which is an integer if there are no more places than that
(`Decimal.rounded_atScale`). What is rounded is then written with just those places
(`Decimal.fixedText_eq_ok`). Together: `Decimal.rounding_exact`.
-/

namespace XPath

/-! ## An integer over a power of ten -/

/-- The floor of a decimal, by integer division. -/
theorem floor_div_pow_ten (u : ℤ) (n : ℕ) : ⌊(u : ℚ) / 10 ^ n⌋ = u.fdiv (10 ^ n) := by
  have h := Rat.floor_intCast_div_natCast u (10 ^ n)
  rw [Int.fdiv_eq_ediv_of_nonneg _ (by positivity)]
  push_cast at h
  exact h

/-- What the floor of a decimal leaves over, by integer division. -/
theorem fract_div_pow_ten (u : ℤ) (n : ℕ) :
    Int.fract ((u : ℚ) / 10 ^ n) = u.fmod (10 ^ n) / 10 ^ n := by
  rw [Int.fract, floor_div_pow_ten, Int.fmod_def]
  push_cast
  field_simp

/-- The quotient and the fraction, which is less than one. -/
theorem div_pow_ten_eq (u : ℤ) (n : ℕ) :
    (u : ℚ) / 10 ^ n = u.fdiv (10 ^ n) + u.fmod (10 ^ n) / 10 ^ n ∧
      (0 : ℚ) ≤ u.fmod (10 ^ n) / 10 ^ n ∧ (u.fmod (10 ^ n) / 10 ^ n : ℚ) < 1 := by
  rw [← fract_div_pow_ten, ← floor_div_pow_ten]
  exact ⟨(Int.floor_add_fract _).symm, Int.fract_nonneg _, Int.fract_lt_one _⟩

/-- The ceiling of a decimal is one more than the floor, unless nothing is left over. -/
theorem ceil_div_pow_ten (u : ℤ) (n : ℕ) :
    ⌈(u : ℚ) / 10 ^ n⌉ = u.fdiv (10 ^ n) + if u.fmod (10 ^ n) = 0 then 0 else 1 := by
  obtain ⟨hsum, hnonneg, hlt⟩ := div_pow_ten_eq u n
  rw [Int.ceil_eq_iff, hsum]
  split
  next h =>
    rw [h, Int.cast_zero, zero_div]
    push_cast
    constructor <;> linarith
  next h =>
    have hpos : (0 : ℚ) < u.fmod (10 ^ n) / 10 ^ n :=
      lt_of_le_of_ne hnonneg (div_ne_zero (Int.cast_ne_zero.mpr h) (by positivity)).symm
    push_cast
    constructor <;> linarith

namespace Decimal

/-- Digits are dropped by rounding halves up. -/
theorem dropDigits_eq (u : ℤ) (n : ℕ) : dropDigits u n = ⌊(u : ℚ) / 10 ^ n + 1 / 2⌋ := by
  obtain ⟨hsum, hnonneg, hlt⟩ := div_pow_ten_eq u n
  have hhalf : 10 ^ n ≤ u.fmod (10 ^ n) * 2 ↔ (1 / 2 : ℚ) ≤ u.fmod (10 ^ n) / 10 ^ n := by
    rw [div_le_div_iff₀ two_pos (by positivity), one_mul]
    exact_mod_cast Iff.rfl
  symm
  rw [Int.floor_eq_iff, hsum, dropDigits]
  split
  next h =>
    have := hhalf.mp h
    push_cast
    constructor <;> linarith
  next h =>
    have := not_le.mp (mt hhalf.mpr h)
    push_cast
    constructor <;> linarith

/-! ## Integers -/

theorem value_ofInt (a : ℤ) : (ofInt a).value = a := by
  rw [value, ofInt, pow_zero, div_one]

/-- The floor is that of the number. -/
theorem floor_eq (d : Decimal) : d.floor = ofInt ⌊d.value⌋ := by
  rw [value, floor_div_pow_ten, floor]

/-- The ceiling is that of the number. -/
theorem ceil_eq (d : Decimal) : d.ceil = ofInt ⌈d.value⌉ := by
  rw [value, ceil_div_pow_ten, ceil]

/-- Truncation is that of the number. -/
theorem truncate_eq (d : Decimal) : d.truncate = XPath.truncate d.value := by
  rw [value, truncate]
  have h := XPath.truncate_div d.unscaled (10 ^ d.scale)
  push_cast at h
  exact h.symm

/-! ## Places -/

/-- So many places, or so many zeros in front of the point. -/
theorem value_places (u places : ℤ) :
    (⟨u * 10 ^ (-places).toNat, places.toNat⟩ : Decimal).value = u / 10 ^ places := by
  obtain ⟨n, rfl | rfl⟩ := places.eq_nat_or_neg
  · simp [value]
  · simp [value]

/-- The number of units at a place, as a fraction. -/
theorem value_mul_zpow {d : Decimal} {places : ℤ} (h : places ≤ d.scale) :
    d.value * 10 ^ places = d.unscaled / 10 ^ ((d.scale : ℤ) - places).toNat := by
  obtain ⟨k, hk⟩ : ∃ k : ℕ, (d.scale : ℤ) - places = k :=
    ⟨_, (Int.toNat_of_nonneg (by omega)).symm⟩
  have hplaces : places = d.scale - k := by omega
  rw [hk, Int.toNat_natCast, hplaces, zpow_sub₀ (by norm_num), zpow_natCast, zpow_natCast, value]
  field_simp

/-- A decimal `r` that is rounded to so many places, a half up. -/
structure Rounded (d : Decimal) (places : ℤ) (r : Decimal) : Prop where
  value_eq : r.value = ⌊d.value * 10 ^ places + 1 / 2⌋ / 10 ^ places
  value_eq_self : d.scale ≤ places → r.value = d.value
  scale_eq : (r.scale : ℤ) = max places 0

/-- With as many places as there are, the number over the power of ten is an integer, and a half
does not reach the next one. -/
theorem rounded_atScale {d : Decimal} {places : ℤ} (h : d.scale ≤ places) :
    Rounded d places ⟨d.atScale places.toNat, places.toNat⟩ := by
  lift places to ℕ using le_trans (Int.natCast_nonneg _) h
  have hvalue := value_eq_atScale (Int.ofNat_le.mp h)
  have hinteger : d.value * 10 ^ (places : ℤ) = d.atScale places := by
    rw [hvalue, zpow_natCast, div_mul_cancel₀ _ (by positivity)]
  have hfloor : ⌊(d.atScale places : ℚ) + 1 / 2⌋ = d.atScale places := by
    rw [Int.floor_eq_iff]
    constructor <;> linarith
  constructor
  case value_eq =>
    rw [hinteger, hfloor, zpow_natCast, Int.toNat_natCast]
    rfl
  case value_eq_self => exact fun _ => hvalue.symm
  case scale_eq => exact (max_eq_left (Int.natCast_nonneg _)).symm

/-- Dropping the digits behind a place rounds to this place. -/
theorem rounded_dropDigits {d : Decimal} {places : ℤ} (h : places < d.scale) :
    Rounded d places ⟨dropDigits d.unscaled ((d.scale : ℤ) - places).toNat * 10 ^ (-places).toNat,
      places.toNat⟩ := by
  constructor
  case value_eq => rw [value_places, dropDigits_eq, value_mul_zpow h.le]
  case value_eq_self => exact fun hle => absurd h (not_lt.mpr hle)
  case scale_eq => exact Int.toNat_eq_max places

/-- Too many digits to drop are an error. -/
theorem round_eq_error {d : Decimal} {places : ℤ}
    (h : (Integer.maxScale : ℤ) < d.scale - places) :
    round d places =
      .error (.scaleOutOfRange ((d.scale : ℤ) - places).toNat Integer.maxScale) := by
  have hless : ¬ (d.scale : ℤ) ≤ places := by omega
  rw [round, if_neg hless]
  exact if_pos (by omega)

/-- Otherwise the number is rounded to the place. -/
theorem round_eq_ok {d : Decimal} {places : ℤ}
    (h : d.scale - places ≤ (Integer.maxScale : ℤ)) :
    ∃ r, round d places = .ok r ∧ Rounded d places r := by
  by_cases hle : (d.scale : ℤ) ≤ places
  · exact ⟨_, if_pos hle, rounded_atScale hle⟩
  · refine ⟨_, ?_, rounded_dropDigits (not_le.mp hle)⟩
    rw [round, if_neg hle]
    exact if_neg (by omega)

/-! ## Text -/

/-- A number `x` as it is written with so many places, without a point for none. -/
structure WrittenTo (x : ℚ) (places : ℤ) (n : Numeral) : Prop where
  plain : n.IsPlain
  value_eq : n.decimal.value = x
  places_eq : n.fraction?.map List.length = if 0 < places then some places.toNat else none

/-- A rounded number is written out with all of its places. -/
theorem fixedText_eq_ok {d r : Decimal} {places : ℤ} (h : round d places = .ok r)
    (hr : (r.scale : ℤ) = max places 0) :
    ∃ n : Numeral, fixedText d places = .ok n.text ∧ WrittenTo r.value places n := by
  have htext :
      fixedText d places = .ok (if places ≤ 0 then Integer.text r.unscaled else r.text) := by
    rw [fixedText, h]
    rfl
  by_cases hplaces : places ≤ 0
  · have hinteger : ofInt r.unscaled = r := by
      have hzero : 0 = r.scale := by omega
      exact congrArg (mk r.unscaled) hzero
    refine ⟨Integer.numeral r.unscaled, ?_, Integer.isPlain_numeral _, ?_, ?_⟩
    · rw [htext, if_pos hplaces, Integer.text_numeral]
    · rw [Integer.decimal_numeral, hinteger]
    · rw [if_neg (by omega)]
      rfl
  · refine ⟨r.numeral, ?_, r.isPlain_numeral, ?_, ?_⟩
    · rw [htext, if_neg hplaces, text_numeral]
    · rw [decimal_numeral, shown, if_neg (by omega)]
    · rw [if_pos (by omega)]
      refine congrArg some (r.length_fractionDigits.trans ?_)
      omega

/-- What is not rounded is not written. -/
theorem fixedText_eq_error {d : Decimal} {places : ℤ} {e : ValueError}
    (h : round d places = .error e) : fixedText d places = .error e := by
  rw [fixedText, h]
  rfl

/-! ## The laws of rounding -/

/-- What rounding to so many places gives, as a decimal and as a text, and what the three roundings
to an integer give. -/
structure RoundingExact (d : Decimal) (places : ℤ) : Prop where
  out_of_range :
    round d places = .error (.scaleOutOfRange ((d.scale : ℤ) - places).toNat (2 ^ 32 - 1)) ↔
      2 ^ 32 - 1 < (d.scale : ℤ) - places
  rounded : (∃ r, round d places = .ok r ∧ Rounded d places r) ↔
    (d.scale : ℤ) - places ≤ 2 ^ 32 - 1
  text_out_of_range :
    fixedText d places = .error (.scaleOutOfRange ((d.scale : ℤ) - places).toNat (2 ^ 32 - 1)) ↔
      2 ^ 32 - 1 < (d.scale : ℤ) - places
  written : (∃ n : Numeral, fixedText d places = .ok n.text ∧
      WrittenTo (⌊d.value * 10 ^ places + 1 / 2⌋ / 10 ^ places) places n) ↔
    (d.scale : ℤ) - places ≤ 2 ^ 32 - 1
  floor_value : d.floor.value = ⌊d.value⌋
  ceil_value : d.ceil.value = ⌈d.value⌉
  truncate_eq : d.truncate = XPath.truncate d.value

/-- Rounding is that of the numbers. It fails only where more digits would have to be dropped than a
scale can count. -/
theorem rounding_exact (d : Decimal) (places : ℤ) : RoundingExact d places := by
  have hmax : (Integer.maxScale : ℤ) = 2 ^ 32 - 1 := rfl
  have hfloor : d.floor.value = ⌊d.value⌋ := by rw [floor_eq, value_ofInt]
  have hceil : d.ceil.value = ⌈d.value⌉ := by rw [ceil_eq, value_ofInt]
  by_cases h : (d.scale : ℤ) - places ≤ 2 ^ 32 - 1
  · obtain ⟨r, hr, hrounded⟩ := round_eq_ok (hmax ▸ h)
    obtain ⟨n, hn, hwritten⟩ := fixedText_eq_ok hr hrounded.scale_eq
    rw [hrounded.value_eq] at hwritten
    exact ⟨iff_of_false (by simp [hr]) (not_lt.mpr h), iff_of_true ⟨r, hr, hrounded⟩ h,
      iff_of_false (by simp [hn]) (not_lt.mpr h), iff_of_true ⟨n, hn, hwritten⟩ h,
      hfloor, hceil, d.truncate_eq⟩
  · have herror := round_eq_error (hmax ▸ not_le.mp h)
    have htext := fixedText_eq_error herror
    exact ⟨iff_of_true herror (not_le.mp h), iff_of_false (by simp [herror]) h,
      iff_of_true htext (not_le.mp h), iff_of_false (by simp [htext]) h,
      hfloor, hceil, d.truncate_eq⟩

-- A half goes up, also below zero.
example : round ⟨-25, 1⟩ 0 = .ok ⟨-2, 0⟩ := rfl

end Decimal

end XPath
