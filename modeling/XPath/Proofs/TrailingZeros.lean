import Mathlib.Algebra.Order.Ring.Int
import Mathlib.Tactic.Positivity
import XPath.Value.Integer

/-!
# Trailing zeros

Zeros are taken off the end of an integer one after another, until another digit stands there or as
many are gone as may go. Division truncates here as everywhere, but it only takes zeros off, so it
leaves nothing over and the sign does not matter (`stripZeros_succ`). Zero never comes to another
digit, and `trimZeros` gives at once what the steps would come to (`trimZeros_eq_stripZeros`).

How many zeros go, and what is left, follows from where this stops (`Stripped`): with fewer zeros
taken off, one more would stand at the end (`Stripped.unique`). So `trimZeros` is described in full
(`trimZeros_eq_iff`).
-/

namespace XPath.Integer

/-! ## Steps -/

theorem stripZeros_succ (max : ℕ) (v : ℤ) :
    stripZeros (max + 1) v =
      if v.tmod 10 = 0 then ((stripZeros max (v.tdiv 10)).1 + 1, (stripZeros max (v.tdiv 10)).2)
      else (0, v) := by
  have hzero : v.tmod 10 = 0 ↔ v % 10 = 0 :=
    Int.dvd_iff_tmod_eq_zero.symm.trans Int.dvd_iff_emod_eq_zero
  rw [stripZeros]
  by_cases h : v % 10 = 0
  · rw [if_pos h, if_pos (hzero.mpr h), Int.tdiv_eq_ediv_of_dvd (Int.dvd_of_emod_eq_zero h)]
  · rw [if_neg h, if_neg (mt hzero.mp h)]

theorem stripZeros_zero (max : ℕ) : stripZeros max 0 = (max, 0) := by
  induction max with
  | zero => rfl
  | succ max ih => rw [stripZeros_succ, if_pos (Int.zero_tmod 10), Int.zero_tdiv, ih]

theorem trimZeros_eq_stripZeros (max : ℕ) (v : ℤ) : trimZeros max v = stripZeros max v := by
  rw [trimZeros]
  split
  next h => rw [h, stripZeros_zero]
  next => rfl

/-! ## What is left -/

/-- `k` zeros off the end of `v` leave `r`, and no more can go or may go. -/
structure Stripped (max : ℕ) (v : ℤ) (k : ℕ) (r : ℤ) : Prop where
  le_max : k ≤ max
  mul_pow : r * 10 ^ k = v
  maximal : k = max ∨ ¬ 10 ∣ r

variable {max k j : ℕ} {v r s : ℤ}

theorem stripped_stripZeros (max : ℕ) (v : ℤ) :
    Stripped max v (stripZeros max v).1 (stripZeros max v).2 where
  le_max := stripZeros_le max v
  mul_pow := stripZeros_mul_pow max v
  maximal := (stripZeros_maximal max v).imp_right (mt Int.emod_eq_zero_of_dvd)

theorem Stripped.le (h : Stripped max v k r) (h' : Stripped max v j s) : j ≤ k := by
  obtain rfl | hr := h.maximal
  · exact h'.le_max
  by_contra hlt
  have hpow : (10 : ℤ) ^ j = 10 ^ (j - k) * 10 ^ k := (pow_sub_mul_pow 10 (by omega)).symm
  have hmul : r * 10 ^ k = s * 10 ^ (j - k) * 10 ^ k := by
    rw [h.mul_pow, mul_assoc, ← hpow, h'.mul_pow]
  have hrs : r = s * 10 ^ (j - k) := mul_right_cancel₀ (by positivity) hmul
  exact hr (hrs ▸ Dvd.dvd.mul_left (dvd_pow_self 10 (by omega)) s)

theorem Stripped.unique (h : Stripped max v k r) (h' : Stripped max v j s) : k = j ∧ r = s := by
  obtain rfl := Nat.le_antisymm (h'.le h) (h.le h')
  exact ⟨rfl, mul_right_cancel₀ (by positivity) (h.mul_pow.trans h'.mul_pow.symm)⟩

theorem stripZeros_eq_iff : stripZeros max v = (k, r) ↔ Stripped max v k r := by
  have hstripped := stripped_stripZeros max v
  constructor
  · intro h
    rwa [h] at hstripped
  · intro h
    obtain ⟨hk, hr⟩ := hstripped.unique h
    exact Prod.ext hk hr

/-- Zero gives up as many zeros as may go. Any other integer is what is left with its zeros put
back, and what is left ends with a zero only if as many went as may go. -/
theorem trimZeros_eq_iff : trimZeros max v = (k, r) ↔
    k ≤ max ∧ (v = 0 → k = max ∧ r = 0) ∧
      (v ≠ 0 → r * 10 ^ k = v ∧ (k = max ∨ ¬ 10 ∣ r)) := by
  by_cases hv : v = 0
  · rw [hv, trimZeros_eq_stripZeros, stripZeros_zero, Prod.mk.injEq]
    constructor
    · rintro ⟨rfl, rfl⟩
      simp
    · rintro ⟨-, h, -⟩
      obtain ⟨rfl, rfl⟩ := h rfl
      exact ⟨rfl, rfl⟩
  · rw [trimZeros_eq_stripZeros, stripZeros_eq_iff]
    refine ⟨fun h => ⟨h.le_max, fun h0 => absurd h0 hv, fun _ => ⟨h.mul_pow, h.maximal⟩⟩, ?_⟩
    rintro ⟨hle, -, h⟩
    obtain ⟨hmul, hmax⟩ := h hv
    exact ⟨hle, hmul, hmax⟩

example : trimZeros 9 (-1200) = (2, -12) := rfl

end XPath.Integer
