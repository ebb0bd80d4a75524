import Mathlib.Algebra.Order.Ring.Int
import XPath.Proofs.DecimalForm
import XPath.Value.Decimal.Compact

/-!
# Which numbers are compact

Of all the forms of a number the trimmed one has the fewest places, and so the smallest integer. A
number that has any form within the limits of compact decimals has its trimmed form within them
(`Decimal.exists_compact_iff`), and this is the form that a format is asked for. So the zeros that a
decimal is written with make no difference: it becomes compact if its number can, and stays the
number that it is (`Decimal.compactIn_exact`).
-/

namespace XPath

variable {γ : Type}

/-- What is relied on of a format: it holds what is within the limits and nothing else, and holds it
as the number that it is. -/
structure CompactFormat.Lawful (F : CompactFormat γ) : Prop where
  isSome_iff : ∀ (m : ℤ) (s : ℕ), -2 ^ 127 ≤ m → m < 2 ^ 127 →
    ((F.ofParts? m s).isSome ↔ |m| < 2 ^ 96 ∧ s ≤ 28)
  value_eq : ∀ (m : ℤ) (s : ℕ) (c : γ), F.ofParts? m s = some c →
    (F.toDecimal c).value = m / 10 ^ s

/-- A bound on the magnitude of an integer, in either notation. -/
theorem natAbs_lt_two_pow_iff {m : ℤ} {n : ℕ} : m.natAbs < 2 ^ n ↔ |m| < 2 ^ n := by
  rw [Int.abs_eq_natAbs]
  exact_mod_cast Iff.rfl

/-- The format whose mantissa has 96 bits keeps the laws. -/
theorem CompactDecimal.lawful_format : CompactDecimal.format.Lawful where
  isSome_iff m s _ _ := by
    have h : (format.ofParts? m s).isSome ↔ m.natAbs < 2 ^ 96 ∧ s ≤ 28 := by
      simp [format, ofParts?]
    rw [h, natAbs_lt_two_pow_iff]
  value_eq m s c h := by
    have hc : c.mantissa = m ∧ c.scale = s := by
      simp only [format, ofParts?, Option.dite_none_right_eq_some, Option.some.injEq] at h
      obtain ⟨_, rfl⟩ := h
      exact ⟨rfl, rfl⟩
    rw [← hc.1, ← hc.2]
    rfl

namespace Decimal

/-- A number has a compact form if and only if its trimmed form is compact. -/
theorem exists_compact_iff (d : Decimal) :
    (∃ (m : ℤ) (s : ℕ), |m| < 2 ^ 96 ∧ s ≤ 28 ∧ d.value = m / 10 ^ s) ↔
      |d.trim.unscaled| < 2 ^ 96 ∧ d.trim.scale ≤ 28 := by
  constructor
  · rintro ⟨m, s, hm, hs, hvalue⟩
    have heq : (⟨m, s⟩ : Decimal).value = d.trim.value := hvalue.symm.trans (value_trim d).symm
    have hscale : d.trim.scale ≤ s := (trimmed_trim d).scale_le heq.symm
    have hunscaled : m = d.trim.unscaled * 10 ^ (s - d.trim.scale) := unscaled_eq_atScale heq hscale
    have hle : |d.trim.unscaled| ≤ |m| := by
      rw [hunscaled, abs_mul, abs_of_pos (by positivity : (0 : ℤ) < 10 ^ (s - d.trim.scale))]
      exact le_mul_of_one_le_right (abs_nonneg _) (one_le_pow₀ (by norm_num))
    exact ⟨hle.trans_lt hm, hscale.trans hs⟩
  · rintro ⟨hm, hs⟩
    exact ⟨d.trim.unscaled, d.trim.scale, hm, hs, (value_trim d).symm⟩

/-! ## Formats -/

variable {F : CompactFormat γ} {d : Decimal} {c : γ}

/-- A scale above 28 is an error by itself. -/
theorem compactIn_of_scale (h : 28 < d.trim.scale) :
    d.compactIn F = .error (.scaleOutOfRange d.trim.scale 28) :=
  if_pos h

/-- A mantissa of 96 bits is well within the 128 that a format is given. -/
theorem inBits?_bind (hF : F.Lawful) (m : ℤ) (s : ℕ) :
    ((Integer.inBits? 128 m).bind (F.ofParts? · s)).isSome ↔ |m| < 2 ^ 96 ∧ s ≤ 28 := by
  by_cases h : -2 ^ 127 ≤ m ∧ m < 2 ^ 127
  · have hbits : Integer.inBits? 128 m = some m := if_pos h
    rw [hbits, Option.bind_some]
    exact hF.isSome_iff m s h.1 h.2
  · have hbits : Integer.inBits? 128 m = none := if_neg h
    rw [hbits, Option.bind_none]
    refine iff_of_false (by simp) fun ⟨hm, _⟩ => h ?_
    rw [abs_lt] at hm
    omega

/-- What fits into the format is what the format makes of it. -/
theorem eq_some_of_inBits?_bind {m : ℤ} {s : ℕ}
    (h : (Integer.inBits? 128 m).bind (F.ofParts? · s) = some c) : F.ofParts? m s = some c := by
  obtain ⟨n, hn, hc⟩ := Option.bind_eq_some_iff.mp h
  obtain ⟨-, hmn⟩ := Option.ite_none_right_eq_some.mp hn
  cases hmn
  exact hc

/-- A scale up to 28 leaves it to the mantissa. -/
theorem compactIn_of_scale_le (h : d.trim.scale ≤ 28) :
    d.compactIn F = match (Integer.inBits? 128 d.trim.unscaled).bind
      (F.ofParts? · d.trim.scale) with
      | some c => .ok c
      | none => .error (.invalidNumber d.text) :=
  if_neg (Nat.not_lt.mpr h)

/-- What comes out has the value of the decimal, and the decimal fits. -/
theorem compactIn_eq_ok (hF : F.Lawful) (h : d.compactIn F = .ok c) :
    |d.trim.unscaled| < 2 ^ 96 ∧ d.trim.scale ≤ 28 ∧ (F.toDecimal c).value = d.value := by
  by_cases hscale : 28 < d.trim.scale
  · rw [compactIn_of_scale hscale] at h
    cases h
  · rw [compactIn_of_scale_le (Nat.not_lt.mp hscale)] at h
    split at h
    next b hb =>
      cases h
      obtain ⟨hm, hs⟩ := (inBits?_bind hF _ _).mp (Option.isSome_of_eq_some hb)
      have hvalue := hF.value_eq _ _ _ (eq_some_of_inBits?_bind hb)
      exact ⟨hm, hs, hvalue.trans (value_trim d)⟩
    next => cases h

/-- The trimmed decimal fits if its mantissa and its scale do, and only then. -/
theorem exists_compactIn_iff (hF : F.Lawful) (d : Decimal) :
    (∃ c, d.compactIn F = .ok c) ↔ |d.trim.unscaled| < 2 ^ 96 ∧ d.trim.scale ≤ 28 := by
  constructor
  · rintro ⟨c, h⟩
    obtain ⟨hm, hs, -⟩ := compactIn_eq_ok hF h
    exact ⟨hm, hs⟩
  · intro h
    obtain ⟨c, hc⟩ := Option.isSome_iff_exists.mp ((inBits?_bind hF _ _).mpr h)
    exact ⟨c, by rw [compactIn_of_scale_le h.2, hc]⟩

/-- The error names the scale if this is too large, and otherwise the number. -/
theorem compactIn_eq_error {e : ValueError} (h : d.compactIn F = .error e) :
    e = if 28 < d.trim.scale then .scaleOutOfRange d.trim.scale 28 else .invalidNumber d.text := by
  by_cases hscale : 28 < d.trim.scale
  · rw [compactIn_of_scale hscale] at h
    rw [if_pos hscale]
    exact (Except.error.inj h).symm
  · rw [compactIn_of_scale_le (Nat.not_lt.mp hscale)] at h
    rw [if_neg hscale]
    split at h
    · cases h
    · exact (Except.error.inj h).symm

/-- A decimal becomes compact if and only if its number can be written within the limits, and stays
the number that it is. Otherwise the error is its scale, if not even its trimmed form has few enough
places, and else its number. -/
theorem compactIn_exact (hF : F.Lawful) (d : Decimal) :
    ((∃ c, d.compactIn F = .ok c) ↔
      ∃ (m : ℤ) (s : ℕ), |m| < 2 ^ 96 ∧ s ≤ 28 ∧ d.value = m / 10 ^ s) ∧
    (∀ c, d.compactIn F = .ok c → (F.toDecimal c).sameValue d) ∧
    ∀ e, d.compactIn F = .error e →
      e = if 28 < d.trim.scale then .scaleOutOfRange d.trim.scale 28 else .invalidNumber
        d.text := by
  refine ⟨(exists_compactIn_iff hF d).trans (exists_compact_iff d).symm, fun c h => ?_,
    fun e h => compactIn_eq_error h⟩
  obtain ⟨-, -, hvalue⟩ := compactIn_eq_ok hF h
  exact (sameValue_iff _ _).mpr hvalue

/-- The largest mantissa at the largest scale, with zeros after it, and the mantissa after it. -/
theorem compactIn_exact_largest :
    CompactDecimal.format.Lawful ∧
    (∃ c, compact ⟨792281625142643375935439503350000, 32⟩ = .ok c ∧
      c.toDecimal.sameValue ⟨792281625142643375935439503350000, 32⟩) ∧
    compact ⟨79228162514264337593543950336, 28⟩ =
      .error (.invalidNumber "7.9228162514264337593543950336") ∧
    ¬ ∃ (m : ℤ) (s : ℕ), |m| < 2 ^ 96 ∧ s ≤ 28 ∧
      (⟨79228162514264337593543950336, 28⟩ : Decimal).value = m / 10 ^ s := by
  have hlawful := CompactDecimal.lawful_format
  obtain ⟨-, hsame, -⟩ := compactIn_exact hlawful ⟨792281625142643375935439503350000, 32⟩
  obtain ⟨hiff, -, -⟩ := compactIn_exact hlawful ⟨79228162514264337593543950336, 28⟩
  have hlargest : compact ⟨792281625142643375935439503350000, 32⟩ =
      .ok ⟨79228162514264337593543950335, 28, by decide, by decide⟩ := rfl
  have hnext : compact ⟨79228162514264337593543950336, 28⟩ =
      .error (.invalidNumber "7.9228162514264337593543950336") := by decide +kernel
  refine ⟨hlawful, ⟨_, hlargest, hsame _ hlargest⟩, hnext, fun h => ?_⟩
  obtain ⟨c, hc⟩ := hiff.mpr h
  exact nomatch hnext.symm.trans hc

end Decimal

end XPath
