import Mathlib.Algebra.Order.Field.Basic
import Mathlib.Algebra.Order.Field.Rat
import Mathlib.Data.Rat.Cast.Order
import Mathlib.Tactic.FieldSimp
import Mathlib.Tactic.Linarith
import Mathlib.Tactic.Ring
import SchemaGen.Proofs.Numeric.Exact

namespace SchemaGen.Numeric

/-- The value of a magnitude. -/
def value (magnitude : Nat) : ℚ := units magnitude / unitsPerOne

/-- How far the next magnitude is, in units. -/
def gap (magnitude : Nat) : Nat := twoPow (magnitude / fractionCount - 1)

/-- A magnitude is the nearest to `x`, counted as if there were no largest one; of two equally near
magnitudes it is the even one. -/
def IsNearest (x : ℚ) (magnitude : Nat) : Prop :=
  ∀ k, k ≠ magnitude → |value magnitude - x| ≤ |value k - x| ∧
    (|value k - x| = |value magnitude - x| → magnitude % 2 = 0)

theorem gap_pos (m : Nat) : 0 < gap m := twoPow_pos _

theorem gap_of_lt {m : Nat} (h : m < fractionCount) : gap m = 1 := by
  rw [gap, Nat.div_eq_of_lt h]
  rfl

theorem gap_normal (exponent : Nat) {fraction : Nat} (h : fraction < fractionCount) :
    gap ((exponent + 1) * fractionCount + fraction) = twoPow exponent := by
  have hdiv : ((exponent + 1) * fractionCount + fraction) / fractionCount = exponent + 1 := by
    rw [Nat.mul_comm, Nat.mul_add_div fractionCount_pos, Nat.div_eq_of_lt h, Nat.add_zero]
  rw [gap, hdiv, Nat.add_sub_cancel]

theorem units_of_lt {m : Nat} (h : m < fractionCount) : units m = m := if_pos h

/-- A significand that is carried over into the next exponent. -/
theorem units_carry (exponent : Nat) :
    units ((exponent + 1) * fractionCount + fractionCount) =
      2 * fractionCount * twoPow exponent := by
  have h := units_normal (exponent + 1) fractionCount_pos
  have hpow : twoPow (exponent + 1) = 2 * twoPow exponent := Nat.pow_succ'
  rw [Nat.add_zero, Nat.add_mul (exponent + 1), Nat.one_mul, Nat.add_zero, hpow] at h
  rw [h, Nat.mul_left_comm, Nat.mul_assoc, Nat.add_zero]

theorem units_succ (m : Nat) : units (m + 1) = units m + gap m := by
  by_cases hm : m < fractionCount
  · rw [units_of_lt hm, gap_of_lt hm]
    by_cases hnext : m + 1 < fractionCount
    · exact units_of_lt hnext
    · have htop : m + 1 = (0 + 1) * fractionCount + 0 := by omega
      rw [htop, units_normal 0 fractionCount_pos]
      have hone : twoPow 0 = 1 := rfl
      rw [hone]
      omega
  · obtain ⟨exponent, fraction, hf, rfl⟩ := exists_normal (Nat.le_of_not_lt hm)
    rw [units_normal exponent hf, gap_normal exponent hf]
    by_cases hnext : fraction + 1 < fractionCount
    · rw [Nat.add_assoc, units_normal exponent hnext]
      ring
    · have htop : fraction + 1 = fractionCount := by omega
      rw [Nat.add_assoc, htop, units_carry, ← htop]
      ring

theorem units_strictMono : StrictMono units := by
  apply strictMono_nat_of_lt_succ
  intro m
  have hgap := gap_pos m
  rw [units_succ]
  omega

/-- The next magnitude is at most 2^53 gaps above nothing. -/
theorem units_succ_le (m : Nat) : units (m + 1) ≤ 2 * fractionCount * gap m := by
  rw [units_succ]
  by_cases hm : m < fractionCount
  · rw [units_of_lt hm, gap_of_lt hm]
    omega
  · obtain ⟨exponent, fraction, hf, rfl⟩ := exists_normal (Nat.le_of_not_lt hm)
    rw [units_normal exponent hf, gap_normal exponent hf]
    have hle : fractionCount + fraction + 1 ≤ 2 * fractionCount := by omega
    have hmul := Nat.mul_le_mul_right (twoPow exponent) hle
    rwa [Nat.add_mul _ 1, Nat.one_mul] at hmul

theorem unitsPerOne_rat_pos : (0 : ℚ) < unitsPerOne := by exact_mod_cast unitsPerOne_pos

theorem value_strictMono : StrictMono value := by
  intro a b h
  have hu : (units a : ℚ) < units b := by exact_mod_cast units_strictMono h
  exact div_lt_div_of_pos_right hu unitsPerOne_rat_pos

theorem value_zero : value 0 = 0 := by
  have hu : units 0 = 0 := units_of_lt fractionCount_pos
  rw [value, hu, Nat.cast_zero, zero_div]

/-- Another magnitude is off by a 2^53rd part at least. -/
theorem value_le_distance {k m : Nat} (h : k ≠ m) :
    value m ≤ (2 * fractionCount : ℕ) * |value k - value m| := by
  have hu := unitsPerOne_rat_pos
  have hdist : |value k - value m| = |(units k : ℚ) - units m| / unitsPerOne := by
    rw [value, value, ← sub_div, abs_div, abs_of_pos hu]
  rw [hdist, value, ← mul_div_assoc]
  apply div_le_div_of_nonneg_right _ hu.le
  rcases Nat.lt_or_gt_of_ne h with hlt | hgt
  · obtain ⟨n, rfl⟩ : ∃ n, m = n + 1 := ⟨m - 1, by omega⟩
    have hmono : units k ≤ units n := units_strictMono.monotone (by omega)
    have hgap : (units n : ℚ) + gap n = units (n + 1) := by exact_mod_cast (units_succ n).symm
    have hle : (units (n + 1) : ℚ) ≤ (2 * fractionCount : ℕ) * gap n := by
      exact_mod_cast units_succ_le n
    have hk : (units k : ℚ) ≤ units n := by exact_mod_cast hmono
    have habs := neg_abs_le ((units k : ℚ) - units (n + 1))
    have hdown : (gap n : ℚ) ≤ |(units k : ℚ) - units (n + 1)| := by linarith
    exact hle.trans (mul_le_mul_of_nonneg_left hdown (Nat.cast_nonneg _))
  · have hmono : units (m + 1) ≤ units k := units_strictMono.monotone (by omega)
    have hgap : (units m : ℚ) + gap m = units (m + 1) := by exact_mod_cast (units_succ m).symm
    have hle : (units (m + 1) : ℚ) ≤ (2 * fractionCount : ℕ) * gap m := by
      exact_mod_cast units_succ_le m
    have hk : (units (m + 1) : ℚ) ≤ units k := by exact_mod_cast hmono
    have habs := le_abs_self ((units k : ℚ) - units m)
    have hup : (gap m : ℚ) ≤ |(units k : ℚ) - units m| := by linarith
    have hlower : (units m : ℚ) ≤ units (m + 1) := by
      exact_mod_cast units_strictMono.monotone (Nat.le_succ m)
    have hmul := mul_le_mul_of_nonneg_left hup (Nat.cast_nonneg (α := ℚ) (2 * fractionCount))
    exact (hlower.trans hle).trans hmul

section Order

variable {x y : ℚ} {k m : Nat}

theorem IsNearest.mid_le (h : IsNearest x m) (hk : k < m) : value k + value m ≤ 2 * x := by
  have hval := value_strictMono hk
  have hle := (h k hk.ne).1
  by_contra hfar
  have hx : x < value m := by linarith
  rw [abs_of_pos (by linarith)] at hle
  have hcloser : |value k - x| < value m - x := by
    rw [abs_lt]
    constructor <;> linarith
  linarith

theorem IsNearest.le_mid (h : IsNearest x m) (hk : m < k) : 2 * x ≤ value m + value k := by
  have hval := value_strictMono hk
  have hle := (h k hk.ne').1
  by_contra hfar
  have hx : value m < x := by linarith
  rw [abs_of_neg (by linarith)] at hle
  have hcloser : |value k - x| < -(value m - x) := by
    rw [abs_lt]
    constructor <;> linarith
  linarith

/-- Larger values have larger nearest magnitudes. -/
theorem IsNearest.mono (hx : IsNearest x m) (hy : IsNearest y k) (h : x ≤ y) : m ≤ k := by
  by_contra hlt
  have hk : k < m := Nat.lt_of_not_le hlt
  have hval := value_strictMono hk
  -- Both are the middle between the two values, so that both magnitudes are even.
  have hxmid := hx.mid_le hk
  have hymid := hy.le_mid hk
  have heq : y = x := by linarith
  subst heq
  have hsame : |value k - y| = |value m - y| := by
    rw [abs_of_neg (by linarith), abs_of_pos (by linarith)]
    linarith
  have hmeven := (hx k hk.ne).2 hsame
  have hkeven := (hy m hk.ne').2 hsame.symm
  -- But then a magnitude stands between them, and it is nearer.
  have hnext : k + 1 < m := by omega
  have hlow := value_strictMono (Nat.lt_succ_self k)
  have hmid := hx.mid_le hnext
  linarith

theorem IsNearest.unique (hm : IsNearest x m) (hk : IsNearest x k) : m = k :=
  Nat.le_antisymm (hm.mono hk le_rfl) (hk.mono hm le_rfl)

theorem isNearest_value (m : Nat) : IsNearest (value m) m := by
  intro k hk
  have hne : value k - value m ≠ 0 := sub_ne_zero.mpr (value_strictMono.injective.ne hk)
  have hpos := abs_pos.mpr hne
  rw [sub_self, abs_zero]
  exact ⟨hpos.le, fun h => absurd h hpos.ne'⟩

/-- A value that is off by half a step at most is the nearest if the next one is a step away, and
the ones before it are too or `x` is not below it. -/
theorem isNearest_of_step (step : ℚ) (hnear : |value m - x| ≤ step / 2)
    (heven : |value m - x| = step / 2 → m % 2 = 0) (hup : value m + step ≤ value (m + 1))
    (hdown : ∀ k < m, value k + step ≤ value m ∨ value m ≤ x) : IsNearest x m := by
  intro k hk
  have hlow := (abs_le.mp hnear).1
  have hhigh := (abs_le.mp hnear).2
  have hfar : step / 2 ≤ |value k - x| ∨ |value m - x| < |value k - x| := by
    rcases Nat.lt_or_gt_of_ne hk with hlt | hgt
    · have habs := neg_abs_le (value k - x)
      rcases hdown k hlt with hstep | hle
      · left
        linarith
      · right
        have hval := value_strictMono hlt
        rw [abs_of_nonpos (by linarith : value m - x ≤ 0)]
        linarith
    · left
      have hval := value_strictMono.monotone (Nat.succ_le_of_lt hgt)
      have habs := le_abs_self (value k - x)
      linarith
  rcases hfar with hhalf | hlt
  · exact ⟨hnear.trans hhalf, fun he => heven (le_antisymm hnear (he ▸ hhalf))⟩
  · exact ⟨hlt.le, fun he => absurd he hlt.ne'⟩

/-- A value is the nearest to what lies less than half a gap above it. -/
theorem isNearest_of_lt_half (hlow : value m ≤ x) (hhigh : 2 * x < value m + value (m + 1)) :
    IsNearest x m := by
  have habs : |value m - x| < (value (m + 1) - value m) / 2 := by
    rw [abs_of_nonpos (by linarith)]
    linarith
  exact isNearest_of_step _ habs.le (fun he => absurd he habs.ne) (by linarith)
    fun _ _ => .inr hlow

/-- A value is the nearest to what is less than half as far from it as other values are. -/
theorem isNearest_of_closer (h : ∀ k, k ≠ m → 2 * |x - value m| < |value k - value m|) :
    IsNearest x m := by
  intro k hk
  have hfar := h k hk
  have htriangle := abs_sub_le (value k) x (value m)
  rw [abs_sub_comm x] at hfar htriangle
  have hlt : |value m - x| < |value k - x| := by linarith
  exact ⟨hlt.le, fun he => absurd he hlt.ne'⟩

end Order

theorem div_eq_div_add_mod (num : Nat) {den : Nat} (h : 0 < den) :
    (num : ℚ) / den = (num / den : ℕ) + (num % den : ℕ) / den := by
  have hd : (den : ℚ) ≠ 0 := by exact_mod_cast h.ne'
  have hnum : (num : ℚ) = den * (num / den : ℕ) + (num % den : ℕ) := by
    exact_mod_cast (Nat.div_add_mod num den).symm
  field_simp
  linarith

/-- The three ways to round: down, up, and from the middle to the even neighbour. -/
theorem roundHalfEven_cases (num den : Nat) :
    (2 * (num % den) < den ∧ roundHalfEven num den = num / den) ∨
      (den < 2 * (num % den) ∧ roundHalfEven num den = num / den + 1) ∨
      (2 * (num % den) = den ∧ roundHalfEven num den = num / den + num / den % 2) := by
  unfold roundHalfEven
  dsimp only
  split
  · exact .inl ⟨by assumption, rfl⟩
  · split
    · exact .inr (.inl ⟨by assumption, rfl⟩)
    · exact .inr (.inr ⟨by omega, rfl⟩)

theorem le_roundHalfEven (num den : Nat) : num / den ≤ roundHalfEven num den := by
  rcases roundHalfEven_cases num den with ⟨-, h⟩ | ⟨-, h⟩ | ⟨-, h⟩ <;> omega

theorem roundHalfEven_le (num den : Nat) : roundHalfEven num den ≤ num / den + 1 := by
  rcases roundHalfEven_cases num den with ⟨-, h⟩ | ⟨-, h⟩ | ⟨-, h⟩ <;> omega

/-- The rounded integer is half off at most, and even if it is half off. -/
theorem roundHalfEven_near (num : Nat) {den : Nat} (h : 0 < den) :
    |(roundHalfEven num den : ℚ) - num / den| ≤ 1 / 2 ∧
      (|(roundHalfEven num den : ℚ) - num / den| = 1 / 2 → roundHalfEven num den % 2 = 0) := by
  have hd : (0 : ℚ) < den := by exact_mod_cast h
  rw [div_eq_div_add_mod num h]
  rcases roundHalfEven_cases num den with ⟨hrest, hr⟩ | ⟨hrest, hr⟩ | ⟨hrest, hr⟩
  · have hpart : ((num % den : ℕ) : ℚ) / den < 1 / 2 := by
      rw [div_lt_iff₀ hd]
      have hcast : (2 : ℚ) * (num % den : ℕ) < den := by exact_mod_cast hrest
      linarith
    have hpos : 0 ≤ ((num % den : ℕ) : ℚ) / den := div_nonneg (Nat.cast_nonneg _) hd.le
    rw [hr, sub_add_cancel_left, abs_neg, abs_of_nonneg hpos]
    exact ⟨hpart.le, fun he => absurd he hpart.ne⟩
  · have hpart : 1 / 2 < ((num % den : ℕ) : ℚ) / den := by
      rw [lt_div_iff₀ hd]
      have hcast : (den : ℚ) < 2 * (num % den : ℕ) := by exact_mod_cast hrest
      linarith
    have hone : ((num % den : ℕ) : ℚ) / den < 1 := by
      rw [div_lt_iff₀ hd, one_mul]
      exact_mod_cast Nat.mod_lt num h
    rw [hr, Nat.cast_add, Nat.cast_one, add_sub_add_left_eq_sub, abs_of_pos (by linarith)]
    exact ⟨by linarith, fun he => absurd he (by linarith)⟩
  · have hpart : ((num % den : ℕ) : ℚ) / den = 1 / 2 := by
      rw [div_eq_iff hd.ne']
      have hcast : (2 : ℚ) * (num % den : ℕ) = den := by exact_mod_cast hrest
      linarith
    refine ⟨?_, fun _ => by omega⟩
    rw [hr, hpart, Nat.cast_add, add_sub_add_left_eq_sub]
    rcases Nat.mod_two_eq_zero_or_one (num / den) with hm | hm <;> rw [hm] <;> norm_num

/-- A significand with an exponent, where a significand of 53 bits may be carried over. -/
theorem units_add_exponent {significand : Nat} (exponent : Nat)
    (hle : significand ≤ 2 * fractionCount)
    (hge : exponent = 0 ∨ fractionCount ≤ significand) :
    units (significand + exponent * fractionCount) = significand * twoPow exponent := by
  by_cases hlow : significand < fractionCount
  · have hzero : exponent = 0 := by omega
    subst hzero
    rw [Nat.zero_mul, Nat.add_zero, units_of_lt hlow]
    exact (Nat.mul_one _).symm
  · by_cases htop : significand = 2 * fractionCount
    · subst htop
      have hindex : 2 * fractionCount + exponent * fractionCount =
          (exponent + 1) * fractionCount + fractionCount := by
        rw [Nat.add_mul, Nat.one_mul, Nat.two_mul, Nat.add_comm, Nat.add_assoc]
      rw [hindex, units_carry]
    · have hindex : significand + exponent * fractionCount =
          (exponent + 1) * fractionCount + (significand - fractionCount) := by
        rw [Nat.add_mul]
        omega
      rw [hindex, units_of_significand exponent (by omega) (by omega)]

/-- A quotient without its last bits has 53 bits, if it loses any. -/
theorem quotient_bounds (num : Nat) {den : Nat} (h : 0 < den) :
    let shift := (num / den).log2 - 52
    num / (den * twoPow shift) < 2 * fractionCount ∧
      (shift = 0 ∨ fractionCount * (den * twoPow shift) ≤ num) := by
  intro shift
  constructor
  · rw [← Nat.div_div_eq_div_mul, Nat.div_lt_iff_lt_mul (twoPow_pos shift)]
    have hlog : num / den < 2 ^ ((num / den).log2 + 1) := Nat.lt_log2_self
    have hpow : 2 * fractionCount * twoPow shift = 2 ^ (53 + shift) := (Nat.pow_add 2 53 shift).symm
    rw [hpow]
    exact hlog.trans_le (Nat.pow_le_pow_right (by decide) (by omega))
  · by_cases hshift : shift = 0
    · exact .inl hshift
    · right
      have hsum : 52 + shift = (num / den).log2 := by omega
      have hne : num / den ≠ 0 := by
        intro hz
        rw [hz] at hsum
        exact absurd hsum (by simp)
      have hlog : 2 ^ (num / den).log2 ≤ num / den := Nat.log2_self_le hne
      have hpow : fractionCount * twoPow shift = 2 ^ (52 + shift) := (Nat.pow_add 2 52 shift).symm
      rw [← hsum, ← hpow, Nat.le_div_iff_mul_le h] at hlog
      rwa [Nat.mul_comm den, ← Nat.mul_assoc]

theorem value_succ (m : Nat) : value (m + 1) = value m + gap m / unitsPerOne := by
  rw [value, value, units_succ, Nat.cast_add, add_div]

theorem twoPow_le_gap {significand exponent : Nat}
    (hge : exponent = 0 ∨ fractionCount ≤ significand) :
    twoPow exponent ≤ gap (significand + exponent * fractionCount) := by
  rcases hge with rfl | hge
  · exact gap_pos _
  · apply Nat.pow_le_pow_right (by decide)
    rw [Nat.add_mul_div_right _ _ fractionCount_pos]
    have hpos := Nat.div_pos hge fractionCount_pos
    omega

/-- The next value is a step above the one of a significand at least. -/
theorem value_add_step {significand exponent : Nat}
    (hge : exponent = 0 ∨ fractionCount ≤ significand) :
    value (significand + exponent * fractionCount) + twoPow exponent / unitsPerOne ≤
      value (significand + exponent * fractionCount + 1) := by
  have hgap : (twoPow exponent : ℚ) ≤ gap (significand + exponent * fractionCount) := by
    exact_mod_cast twoPow_le_gap hge
  have hstep := div_le_div_of_nonneg_right hgap unitsPerOne_rat_pos.le
  rw [value_succ]
  linarith

/-- The values before the one of a significand are a step below it at least, unless the significand
is the least of its exponent. -/
theorem add_step_le_value {k significand exponent : Nat}
    (hleast : exponent = 0 ∨ fractionCount < significand)
    (hk : k < significand + exponent * fractionCount) :
    value k + twoPow exponent / unitsPerOne ≤ value (significand + exponent * fractionCount) := by
  have hpos : 0 < significand := by
    rcases hleast with rfl | hlt <;> omega
  obtain ⟨n, rfl⟩ : ∃ n, significand = n + 1 := ⟨significand - 1, by omega⟩
  have hnext : n + 1 + exponent * fractionCount = n + exponent * fractionCount + 1 := by omega
  have hprevious : exponent = 0 ∨ fractionCount ≤ n := by omega
  have hadd := value_add_step hprevious
  have hmono := value_strictMono.monotone (show k ≤ n + exponent * fractionCount by omega)
  rw [hnext]
  linarith

theorem value_significand {significand exponent : Nat} (hle : significand ≤ 2 * fractionCount)
    (hge : exponent = 0 ∨ fractionCount ≤ significand) :
    value (significand + exponent * fractionCount) =
      significand * (twoPow exponent / unitsPerOne) := by
  rw [value, units_add_exponent exponent hle hge, Nat.cast_mul, mul_div_assoc]

theorem step_pos (exponent : Nat) : (0 : ℚ) < twoPow exponent / unitsPerOne :=
  div_pos (by exact_mod_cast twoPow_pos exponent) unitsPerOne_rat_pos

/-- A fraction in steps of an exponent. -/
theorem div_eq_mul_step (num den exponent : Nat) :
    (num : ℚ) / den = (num * unitsPerOne : ℕ) / (den * twoPow exponent : ℕ) *
      (twoPow exponent / unitsPerOne) := by
  have hpow : (0 : ℚ) < twoPow exponent := by exact_mod_cast twoPow_pos exponent
  rw [Nat.cast_mul, Nat.cast_mul, div_mul_div_comm, mul_assoc (den : ℚ),
    mul_comm (twoPow exponent : ℚ), mul_assoc (num : ℚ),
    mul_div_mul_right _ _ (mul_pos unitsPerOne_rat_pos hpow).ne']

/-- The computed index is the nearest. -/
theorem nearestIndex_isNearest (num : Nat) {den : Nat} (hd : 0 < den) :
    IsNearest ((num : ℚ) / den) (nearestIndex num den) := by
  obtain ⟨hhigh, hlow⟩ := quotient_bounds (num * unitsPerOne) hd
  unfold nearestIndex
  dsimp only at hhigh hlow ⊢
  generalize (num * unitsPerOne / den).log2 - 52 = shift at hhigh hlow ⊢
  have hpos := Nat.mul_pos hd (twoPow_pos shift)
  obtain ⟨hnear, heven⟩ := roundHalfEven_near (num * unitsPerOne) hpos
  have hup := roundHalfEven_le (num * unitsPerOne) (den * twoPow shift)
  have hdown := le_roundHalfEven (num * unitsPerOne) (den * twoPow shift)
  generalize roundHalfEven (num * unitsPerOne) (den * twoPow shift) = r at *
  have hge : shift = 0 ∨ fractionCount ≤ r := by
    refine hlow.imp_right fun hle => ?_
    exact ((Nat.le_div_iff_mul_le hpos).mpr hle).trans hdown
  have hstep := step_pos shift
  have hvalue := value_significand (by omega : r ≤ 2 * fractionCount) hge
  have hx := div_eq_mul_step num den shift
  have hoff : |value (r + shift * fractionCount) - num / den| =
      |(r : ℚ) - (num * unitsPerOne : ℕ) / (den * twoPow shift : ℕ)| *
        (twoPow shift / unitsPerOne) := by
    rw [hvalue, hx, ← sub_mul, abs_mul, abs_of_pos hstep]
  have hhalf : (twoPow shift / unitsPerOne : ℚ) / 2 = 1 / 2 * (twoPow shift / unitsPerOne) := by
    rw [div_eq_inv_mul _ 2, inv_eq_one_div]
  apply isNearest_of_step (twoPow shift / unitsPerOne)
  · rw [hoff, hhalf]
    exact mul_le_mul_of_nonneg_right hnear hstep.le
  · intro htie
    rw [hoff, hhalf] at htie
    have hr := heven (mul_right_cancel₀ hstep.ne' htie)
    have hF : fractionCount % 2 = 0 := by decide
    rw [Nat.add_mod, Nat.mul_mod, hr, hF, Nat.mul_zero]
  · exact value_add_step hge
  · intro k hk
    by_cases hleast : shift = 0 ∨ fractionCount < r
    · exact .inl (add_step_le_value hleast hk)
    · -- The least significand was not rounded up to.
      right
      have hr : r = fractionCount := by omega
      have hle : fractionCount * (den * twoPow shift) ≤ num * unitsPerOne := by
        rcases hlow with hz | hle
        · exact absurd (.inl hz) hleast
        · exact hle
      rw [hvalue, hx, hr]
      apply mul_le_mul_of_nonneg_right _ hstep.le
      rw [le_div_iff₀ (by exact_mod_cast hpos)]
      exact_mod_cast hle

theorem nearestIndex_eq_iff {num den m : Nat} (hd : 0 < den) :
    nearestIndex num den = m ↔ IsNearest ((num : ℚ) / den) m := by
  have hn := nearestIndex_isNearest num hd
  constructor
  · intro h
    rwa [← h]
  · exact fun h => hn.unique h

/-- What lies between two fractions with the same nearest magnitude has it too. -/
theorem IsNearest.between {x y z : ℚ} {m : Nat} (hx : IsNearest x m) (hz : IsNearest z m)
    (hpos : 0 ≤ y) (hxy : x ≤ y) (hyz : y ≤ z) : IsNearest y m := by
  have hy : IsNearest y (nearestIndex y.num.toNat y.den) := by
    have h := nearestIndex_isNearest y.num.toNat y.den_pos
    have hnum : ((y.num.toNat : ℕ) : ℚ) = y.num := by
      exact_mod_cast Int.toNat_of_nonneg (Rat.num_nonneg.mpr hpos)
    rwa [hnum, Rat.num_div_den] at h
  have hm := Nat.le_antisymm (hx.mono hy hxy) (hy.mono hz hyz)
  rwa [← hm] at hy

end SchemaGen.Numeric
