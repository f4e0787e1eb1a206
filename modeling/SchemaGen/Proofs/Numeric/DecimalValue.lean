import Mathlib.Algebra.Order.Field.Power
import SchemaGen.Numeric.Decimal
import SchemaGen.Proofs.Numeric.Nearest

namespace SchemaGen.Numeric

theorem digitCount_le_iff {n k : Nat} : digitCount n ≤ k ↔ n < 10 ^ k := by
  by_cases hn : n = 0
  · have hpow : 0 < 10 ^ k := Nat.pow_pos (by decide)
    simp [digitCount, hn, hpow]
  · rw [digitCount, if_neg hn]
    by_cases hk : k = 0
    · have hlength : 0 < (decimalDigits n).length := Nat.length_toDigits_pos
      subst hk
      omega
    · exact Nat.length_toDigits_le_iff (by decide) (Nat.pos_of_ne_zero hk)

theorem lt_pow_digitCount (n : Nat) : n < 10 ^ digitCount n := digitCount_le_iff.mp le_rfl

theorem pow_digitCount_le {n : Nat} (h : n ≠ 0) : 10 ^ (digitCount n - 1) ≤ n := by
  by_contra hlt
  have hle := digitCount_le_iff.mpr (Nat.lt_of_not_le hlt)
  have hpos : digitCount n ≠ 0 := by
    intro hz
    have hn := lt_pow_digitCount n
    rw [hz] at hn
    omega
  omega

namespace Decimal

/-- The value of a decimal. -/
def value (d : Decimal) : ℚ := d.digits * 10 ^ d.exponent

theorem ten_zpow_pos (e : Int) : (0 : ℚ) < 10 ^ e := zpow_pos (by norm_num) e

theorem value_nonneg (d : Decimal) : 0 ≤ d.value :=
  mul_nonneg (Nat.cast_nonneg _) (ten_zpow_pos _).le

theorem num_div_den (d : Decimal) : (d.num : ℚ) / d.den = d.value := by
  unfold num den tenPow value
  rcases Int.le_total 0 d.exponent with h | h
  · obtain ⟨k, hk⟩ := Int.eq_ofNat_of_zero_le h
    rw [hk]
    simp
  · obtain ⟨k, hk⟩ := Int.exists_eq_neg_ofNat h
    rw [hk]
    simp [div_eq_mul_inv]

theorem den_pos (d : Decimal) : 0 < d.den := Nat.pow_pos (by decide)

/-- The exponent of the first digit bounds the value. -/
theorem value_lt (d : Decimal) : d.value < 10 ^ (digitCount d.digits + d.exponent) := by
  have hlt : (d.digits : ℚ) < 10 ^ digitCount d.digits := by
    exact_mod_cast lt_pow_digitCount d.digits
  rw [zpow_add₀ (by norm_num), zpow_natCast]
  exact mul_lt_mul_of_pos_right hlt (ten_zpow_pos _)

theorem le_value {d : Decimal} (h : d.digits ≠ 0) :
    10 ^ (digitCount d.digits + d.exponent - 1) ≤ d.value := by
  have hcount : digitCount d.digits ≠ 0 := by
    intro hz
    have hlt := lt_pow_digitCount d.digits
    rw [hz] at hlt
    omega
  have hle : (10 : ℚ) ^ (digitCount d.digits - 1) ≤ d.digits := by
    exact_mod_cast pow_digitCount_le h
  have hsplit : (digitCount d.digits + d.exponent - 1 : Int) =
      (digitCount d.digits - 1 : Nat) + d.exponent := by omega
  rw [hsplit, zpow_add₀ (by norm_num), zpow_natCast]
  exact mul_le_mul_of_nonneg_right hle (ten_zpow_pos _).le

theorem value_finiteCount_le : Numeric.value finiteCount ≤ 10 ^ (400 : Int) := by
  have hcount : finiteCount = (2046 + 1) * fractionCount + 0 := rfl
  have hunits : units finiteCount = fractionCount * twoPow 2046 := by
    rw [hcount, units_normal 2046 fractionCount_pos, Nat.add_zero]
  have hle : fractionCount * twoPow 2046 ≤ 10 ^ 400 * unitsPerOne := by decide +kernel
  rw [Numeric.value, div_le_iff₀ unitsPerOne_rat_pos, hunits]
  exact_mod_cast hle

theorem lt_value_one : 2 * (10 : ℚ) ^ (-400 : Int) < Numeric.value 1 := by
  have hunits : units 1 = 1 := units_of_lt (by decide)
  have hlt : 2 * unitsPerOne < 10 ^ 400 := by decide +kernel
  have hcast : (2 * unitsPerOne : ℚ) < 10 ^ 400 := by exact_mod_cast hlt
  rw [Numeric.value, hunits, lt_div_iff₀ unitsPerOne_rat_pos, zpow_neg, mul_right_comm,
    ← div_eq_mul_inv, div_lt_iff₀ (ten_zpow_pos _), Nat.cast_one, one_mul]
  exact_mod_cast hcast

/-- A decimal is read as its nearest magnitude, where there is a finite one. -/
theorem nearestIndex_eq_iff {d : Decimal} {m : Nat} (hm : m < finiteCount) :
    d.nearestIndex = m ↔ IsNearest d.value m := by
  unfold nearestIndex
  dsimp only
  split
  · next hsmall =>
    have hzero : IsNearest d.value 0 := by
      apply isNearest_of_lt_half
      · rw [value_zero]
        exact d.value_nonneg
      · have hvalue : d.value ≤ 10 ^ (-400 : Int) := by
          rcases hsmall with hz | hscale
          · rw [value, hz, Nat.cast_zero, zero_mul]
            exact (ten_zpow_pos _).le
          · exact d.value_lt.le.trans (zpow_le_zpow_right₀ (by norm_num) hscale.le)
        have hone := lt_value_one
        rw [value_zero]
        linarith
    constructor
    · intro h
      rwa [← h]
    · exact fun h => hzero.unique h
  · next hsmall =>
    split
    · next hscale =>
      have hlarge : (10 : ℚ) ^ (400 : Int) ≤ d.value :=
        (zpow_le_zpow_right₀ (by norm_num) (by omega)).trans
          (le_value fun hz => hsmall (.inl hz))
      constructor
      · intro h
        omega
      · intro h
        have hmid := h.le_mid hm
        have hlt := value_strictMono hm
        have htop := value_finiteCount_le
        linarith
    · rw [Numeric.nearestIndex_eq_iff d.den_pos, num_div_den]

theorem strip_go_eq (digits : Nat) (exponent : Int) (n : Nat) :
    ∃ zeros : Nat, digits = (strip.go digits exponent n).digits * 10 ^ zeros ∧
      (strip.go digits exponent n).exponent = exponent + zeros := by
  induction n generalizing digits exponent with
  | zero => exact ⟨0, by simp [strip.go]⟩
  | succ n ih =>
    rw [strip.go]
    split
    · next hmod =>
      obtain ⟨zeros, hdigits, hexponent⟩ := ih (digits / 10) (exponent + 1)
      refine ⟨zeros + 1, ?_, by omega⟩
      rw [Nat.pow_succ, ← Nat.mul_assoc, ← hdigits]
      omega
    · exact ⟨0, by simp⟩

/-- Zeros are only moved. -/
theorem strip_eq (d : Decimal) :
    ∃ zeros : Nat, d.digits = d.strip.digits * 10 ^ zeros ∧ d.strip.exponent = d.exponent + zeros :=
  strip_go_eq _ _ _

theorem value_strip (d : Decimal) : d.strip.value = d.value := by
  obtain ⟨zeros, hdigits, hexponent⟩ := d.strip_eq
  rw [value, value, hexponent, hdigits, zpow_add₀ (by norm_num), zpow_natCast]
  push_cast
  ring

theorem strip_go_mod {digits n : Nat} (exponent : Int) (h : digits ≠ 0) (hn : digits < 10 ^ n) :
    (strip.go digits exponent n).digits % 10 ≠ 0 := by
  induction n generalizing digits exponent with
  | zero => omega
  | succ n ih =>
    rw [strip.go]
    split
    · next hmod =>
      rw [Nat.pow_succ] at hn
      exact ih (exponent + 1) (by omega) (by omega)
    · next hmod => exact hmod

/-- No zero is left behind. -/
theorem strip_mod {d : Decimal} (h : d.digits ≠ 0) : d.strip.digits % 10 ≠ 0 :=
  strip_go_mod d.exponent h (lt_pow_digitCount d.digits)

/-- A decimal of a row of digits, or of the next power of ten, has no more digits than the row. -/
theorem digitCount_strip_le {d : Decimal} {count : Nat} (h : d.digits ≠ 0) (hcount : count ≠ 0)
    (hle : d.digits ≤ 10 ^ count) : digitCount d.strip.digits ≤ count := by
  obtain ⟨zeros, hdigits, -⟩ := d.strip_eq
  have hmod := strip_mod h
  obtain ⟨n, rfl⟩ : ∃ n, count = n + 1 := ⟨count - 1, by omega⟩
  rw [digitCount_le_iff]
  by_cases hzeros : zeros = 0
  · rw [hzeros, Nat.pow_zero, Nat.mul_one] at hdigits
    rw [← hdigits] at hmod ⊢
    apply Nat.lt_of_le_of_ne hle
    intro heq
    rw [heq, Nat.pow_succ] at hmod
    omega
  · obtain ⟨k, rfl⟩ : ∃ k, zeros = k + 1 := ⟨zeros - 1, by omega⟩
    have hten : d.strip.digits * 10 ≤ d.digits := by
      rw [Nat.pow_succ, ← Nat.mul_assoc] at hdigits
      have hpow : d.strip.digits ≤ d.strip.digits * 10 ^ k :=
        Nat.le_mul_of_pos_right _ (Nat.pow_pos (by decide))
      omega
    have hpos : 0 < 10 ^ n := Nat.pow_pos (by decide)
    rw [Nat.pow_succ] at hle ⊢
    omega

end Decimal
end SchemaGen.Numeric
