import Mathlib.Order.Bounds.Basic
import XPath.Proofs.DecimalValue

/-!
# One form for each number

`1.5` and `1.50` are forms of one number. With fewer places than a trimmed form has, the number
cannot be written: at the scale of the trimmed form its integer would end with a zero
(`Decimal.Trimmed.scale_le`). So there is one trimmed form (`Decimal.Trimmed.eq_of_value_eq`), and
`Decimal.trim` finds it from any other. Two decimals are the same number if and only if they are
trimmed to the same form (`Decimal.trim_canonical`).
-/

namespace XPath.Decimal

/-- Of two forms of a number, the longer one is the shorter one with zeros appended. -/
theorem unscaled_eq_atScale {a b : Decimal} (h : a.value = b.value) (hle : b.scale ≤ a.scale) :
    a.unscaled = b.atScale a.scale := by
  rw [value_eq_atScale hle, value, div_left_inj' (by positivity)] at h
  exact_mod_cast h

/-- No form of a number has a smaller scale than the trimmed one. -/
theorem Trimmed.scale_le {a b : Decimal} (ha : a.Trimmed) (h : a.value = b.value) :
    a.scale ≤ b.scale := by
  obtain hzero | hdvd := ha
  · omega
  · refine Nat.not_lt.mp fun hlt => hdvd ?_
    rw [unscaled_eq_atScale h hlt.le, atScale]
    exact Dvd.dvd.mul_left (dvd_pow_self 10 (Nat.sub_ne_zero_of_lt hlt)) _

/-- A number has one trimmed form. -/
theorem Trimmed.eq_of_value_eq {a b : Decimal} (ha : a.Trimmed) (hb : b.Trimmed)
    (h : a.value = b.value) : a = b := by
  have hscale : a.scale = b.scale := Nat.le_antisymm (ha.scale_le h) (hb.scale_le h.symm)
  have hunscaled : a.unscaled = b.unscaled := by
    rw [unscaled_eq_atScale h hscale.ge, atScale, hscale, Nat.sub_self, pow_zero, mul_one]
  cases a
  cases b
  exact congrArg₂ mk hunscaled hscale

/-- What is trimmed stays as it is. -/
theorem trim_eq_self {d : Decimal} (h : d.Trimmed) : d.trim = d :=
  (trimmed_trim d).eq_of_value_eq h (value_trim d)

/-- Two decimals are the same number if they are the same once trimmed. -/
theorem trim_eq_trim_iff {a b : Decimal} : a.trim = b.trim ↔ a.value = b.value := by
  rw [← value_trim a, ← value_trim b]
  exact ⟨congrArg value, (trimmed_trim a).eq_of_value_eq (trimmed_trim b)⟩

/-- Trimming chooses one form for each number, the one with the fewest places. -/
theorem trim_canonical :
    (∀ a : Decimal, a.trim.value = a.value ∧
      IsLeast (scale '' {b : Decimal | b.value = a.value}) a.trim.scale ∧
      a.trim.trim = a.trim) ∧
    ∀ a b : Decimal, a.sameValue b = true ↔ a.trim = b.trim := by
  refine ⟨fun a => ⟨value_trim a, ⟨⟨a.trim, value_trim a, rfl⟩, ?_⟩, trim_eq_self (trimmed_trim a)⟩,
    fun a b => (sameValue_iff a b).trans trim_eq_trim_iff.symm⟩
  rintro _ ⟨b, hb, rfl⟩
  exact (trimmed_trim a).scale_le ((value_trim a).trans hb.symm)

-- Zero has no places, however many it is written with.
example : trim ⟨0, 7⟩ = zero := rfl

end XPath.Decimal
