import SchemaGen.Proofs.Numeric.Integer
import SchemaGen.Proofs.Numeric.Nearest

namespace SchemaGen.Numeric

open Binary64

theorem twoPow_le_twoPow {m n : Nat} (h : m ≤ n) : twoPow m ≤ twoPow n :=
  Nat.pow_le_pow_right Nat.two_pos h

theorem log2_lt_iff {n : Nat} (h : n ≠ 0) (k : Nat) : n.log2 < k ↔ n < twoPow k := Nat.log2_lt h

theorem log2_append {n s rest : Nat} (h : n ≠ 0) (hrest : rest < twoPow s) :
    (n * twoPow s + rest).log2 = n.log2 + s := by
  have hlow : 2 ^ n.log2 ≤ n := Nat.log2_self_le h
  have hhigh : n < 2 ^ (n.log2 + 1) := Nat.lt_log2_self
  have hsplit (m : Nat) : 2 ^ (m + s) = 2 ^ m * twoPow s := Nat.pow_add 2 m s
  have hpos := Nat.mul_pos (Nat.pos_of_ne_zero h) (twoPow_pos s)
  rw [Nat.log2_eq_iff (by omega), Nat.add_right_comm, hsplit, hsplit]
  constructor
  · exact (Nat.mul_le_mul_right _ hlow).trans (Nat.le_add_right _ _)
  · have hmul : (n + 1) * twoPow s ≤ 2 ^ (n.log2 + 1) * twoPow s := Nat.mul_le_mul_right _ hhigh
    rw [Nat.add_mul, Nat.one_mul] at hmul
    omega

theorem log2_mul_twoPow {n : Nat} (h : n ≠ 0) (s : Nat) : (n * twoPow s).log2 = n.log2 + s :=
  log2_append h (twoPow_pos s)

theorem roundHalfEven_mul_mul (num den : Nat) {c : Nat} (h : 0 < c) :
    roundHalfEven (num * c) (den * c) = roundHalfEven num den := by
  have hlt (a b : Nat) : a * c < b * c ↔ a < b := Nat.mul_lt_mul_right h
  unfold roundHalfEven
  dsimp only
  rw [Nat.mul_div_mul_right _ _ h, Nat.mul_mod_mul_right, ← Nat.mul_assoc]
  simp only [hlt]

theorem nearestIndex_mul_mul (num : Nat) {den c : Nat} (hd : 0 < den) (hc : 0 < c) :
    nearestIndex (num * c) (den * c) = nearestIndex num den := by
  have hne : (c : ℚ) ≠ 0 := by exact_mod_cast hc.ne'
  rw [nearestIndex_eq_iff (Nat.mul_pos hd hc), Nat.cast_mul, Nat.cast_mul,
    mul_div_mul_right _ _ hne]
  exact nearestIndex_isNearest num hd

theorem nearestIndex_of_units {n m : Nat} (h : units m = n * unitsPerOne) :
    nearestIndex n 1 = m :=
  nearestIndex_of_exact Nat.one_pos (by rw [h, Nat.mul_one])

/-- A number of at least 53 bits, by its first 53 bits. -/
theorem nearestIndex_of_le {n : Nat} (h : fractionCount ≤ n) :
    nearestIndex n 1 = roundHalfEven n (twoPow (n.log2 - 52)) +
      (n.log2 - 52 + 1074) * fractionCount := by
  have hne : n ≠ 0 := by
    rintro rfl
    exact absurd h (Nat.not_le.mpr fractionCount_pos)
  have hlog : 52 ≤ n.log2 := (Nat.le_log2 hne).mpr h
  have hshift : n.log2 + 1074 - 52 = n.log2 - 52 + 1074 := by omega
  unfold nearestIndex
  dsimp only
  rw [Nat.div_one, Nat.one_mul, unitsPerOne, log2_mul_twoPow hne, hshift, twoPow_add,
    roundHalfEven_mul_mul _ _ (twoPow_pos 1074)]

/-- Twice the number is one exponent further. -/
theorem nearestIndex_mul_twoPow {n : Nat} (h : n ≠ 0) (k : Nat) :
    nearestIndex (n * twoPow k) 1 = nearestIndex n 1 + k * fractionCount := by
  have hunits : n * unitsPerOne ≠ 0 := Nat.mul_ne_zero h unitsPerOne_pos.ne'
  have hle : fractionCount ≤ n * unitsPerOne := by
    have hone : fractionCount ≤ unitsPerOne := twoPow_le_twoPow (by decide)
    exact hone.trans (Nat.le_mul_of_pos_left _ (Nat.pos_of_ne_zero h))
  have hlog : 52 ≤ (n * unitsPerOne).log2 := (Nat.le_log2 hunits).mpr hle
  unfold nearestIndex
  dsimp only
  rw [Nat.div_one, Nat.div_one, Nat.one_mul, Nat.one_mul, Nat.mul_right_comm,
    log2_mul_twoPow hunits, Nat.sub_add_comm hlog, twoPow_add,
    roundHalfEven_mul_mul _ _ (twoPow_pos k), Nat.add_mul, Nat.add_assoc]

theorem units_add_twoPow {m : Nat} (h : fractionCount ≤ m) (k : Nat) :
    units (m + k * fractionCount) = units m * twoPow k := by
  obtain ⟨exponent, fraction, hf, rfl⟩ := exists_normal h
  have hindex : (exponent + 1) * fractionCount + fraction + k * fractionCount =
      (exponent + k + 1) * fractionCount + fraction := by
    rw [Nat.add_right_comm, ← Nat.add_mul, Nat.add_right_comm exponent]
  rw [hindex, units_normal _ hf, units_normal _ hf, twoPow_add, Nat.mul_assoc]

theorem nearestIndex_mono {m n : Nat} (h : m ≤ n) : nearestIndex m 1 ≤ nearestIndex n 1 := by
  apply (nearestIndex_isNearest m Nat.one_pos).mono (nearestIndex_isNearest n Nat.one_pos)
  have hle : (m : ℚ) ≤ n := by exact_mod_cast h
  simpa using hle

theorem fractionCount_le_nearestIndex {n : Nat} (h : n ≠ 0) :
    fractionCount ≤ nearestIndex n 1 := by
  have hone : nearestIndex 1 1 = 1023 * fractionCount := by decide +kernel
  have hmono : nearestIndex 1 1 ≤ nearestIndex n 1 := nearestIndex_mono (Nat.pos_of_ne_zero h)
  omega

theorem ne_zero_of_exactBound_le {n : Nat} (h : exactBound ≤ n) : n ≠ 0 :=
  Nat.ne_of_gt (Nat.lt_of_lt_of_le (twoPow_pos 53) h)

theorem nearestIndex_exactBound : nearestIndex exactBound 1 = 1076 * fractionCount := by
  decide +kernel

theorem gap_of_exactBound_le {n : Nat} (h : exactBound ≤ n) (k : Nat) :
    twoPow (k + 1 + 1074) ≤ gap (nearestIndex n 1 + k * fractionCount) := by
  have hmono := nearestIndex_mono h
  rw [nearestIndex_exactBound] at hmono
  apply twoPow_le_twoPow
  have hexponent : 1076 + k ≤ (nearestIndex n 1 + k * fractionCount) / fractionCount := by
    rw [Nat.le_div_iff_mul_le fractionCount_pos, Nat.add_mul]
    omega
  omega

namespace Binary64

theorem add_positive (m k : Fin finiteCount) :
    (finite false m).add (finite false k) =
      ofRatio false (units m + units k) unitsPerOne := by
  have hsum : signedUnits false m + signedUnits false k = ((units m + units k : Nat) : Int) := rfl
  have hneg : ¬ ((units m + units k : Nat) : Int) < 0 := Int.not_lt.mpr (Int.natCast_nonneg _)
  rw [add, hsum, Int.natAbs_natCast, decide_eq_false hneg, Bool.and_false, Bool.or_false]

/-- What is less than half a gap is lost in a sum. -/
theorem add_of_lt_gap {m k : Fin finiteCount} (h : 2 * units k < gap m) :
    (finite false m).add (finite false k) = finite false m := by
  have hindex : nearestIndex (units m + units k) unitsPerOne = m := by
    rw [nearestIndex_eq_iff unitsPerOne_pos, Nat.cast_add, add_div]
    have hsmall : (units k : ℚ) / unitsPerOne * 2 < gap m / unitsPerOne := by
      rw [div_mul_eq_mul_div]
      apply div_lt_div_of_pos_right _ unitsPerOne_rat_pos
      rw [mul_comm]
      exact_mod_cast h
    have hpos : 0 ≤ (units k : ℚ) / unitsPerOne :=
      div_nonneg (Nat.cast_nonneg _) (Nat.cast_nonneg _)
    rw [← value]
    apply isNearest_of_lt_half
    · linarith
    · rw [value_succ]
      linarith
  rw [add_positive, ofRatio, hindex, ofIndex, dif_pos m.isLt]

/-- A number of at most 53 bits is a value. -/
theorem ofNat_exact {n : Nat} (h : n ≤ exactBound) :
    ∃ m : Fin finiteCount, ofNat n = finite false m ∧ units m = n * unitsPerOne := by
  obtain ⟨m, hm, hunits⟩ := exists_units h
  refine ⟨⟨m, hm⟩, ?_, hunits⟩
  rw [ofNat, ofRatio, nearestIndex_of_units hunits, ofIndex, dif_pos hm]

/-- Zeros behind at most 53 bits do not matter. -/
theorem ofNat_exact_mul {n k : Nat} (h : n ≤ exactBound) (hk : k ≤ 52) :
    ∃ m : Fin finiteCount,
      ofNat (n * twoPow k) = finite false m ∧ units m = n * twoPow k * unitsPerOne := by
  by_cases hzero : n = 0
  · subst hzero
    rw [Nat.zero_mul]
    exact ofNat_exact (Nat.zero_le exactBound)
  obtain ⟨m, hm, hunits⟩ := exists_units h
  have hindex := nearestIndex_of_units hunits
  have hmono := nearestIndex_mono h
  have hnormal := fractionCount_le_nearestIndex hzero
  have hscaled := nearestIndex_mul_twoPow hzero k
  rw [nearestIndex_exactBound] at hmono
  rw [hindex] at hmono hnormal hscaled
  have hexponent : k * fractionCount ≤ 52 * fractionCount := Nat.mul_le_mul_right _ hk
  have hlt : m + k * fractionCount < finiteCount := by
    have hpos := fractionCount_pos
    rw [finiteCount]
    omega
  refine ⟨⟨_, hlt⟩, ?_, ?_⟩
  · rw [ofNat, ofRatio, hscaled, ofIndex, dif_pos hlt]
  · rw [units_add_twoPow hnormal, hunits, Nat.mul_right_comm]

theorem ofNat_of_lt {n : Nat} (h : nearestIndex n 1 < finiteCount) :
    ofNat n = finite false ⟨nearestIndex n 1, h⟩ := dif_pos h

theorem ofNat_of_le {n : Nat} (h : finiteCount ≤ nearestIndex n 1) : ofNat n = infinity false :=
  dif_neg (Nat.not_lt.mpr h)

theorem ofNat_zero : ofNat 0 = zero := by decide +kernel

theorem zero_mul_finite (m : Fin finiteCount) : zero.mul (finite false m) = zero := by
  have hden : 0 < unitsPerOne * unitsPerOne := Nat.mul_pos unitsPerOne_pos unitsPerOne_pos
  have hunits : units 0 = 0 := units_of_lt fractionCount_pos
  have hindex : nearestIndex 0 (unitsPerOne * unitsPerOne) = 0 :=
    nearestIndex_of_exact hden (by rw [hunits, Nat.zero_mul, Nat.zero_mul])
  rw [zero, mul, ofRatio, hunits, Nat.zero_mul, hindex]
  rfl

/-- A product with a power of two is not rounded again. -/
theorem ofNat_mul_twoPow (n : Nat) {k : Nat} (hk : k ≤ 53) :
    (ofNat n).mul (ofNat (twoPow k)) = ofNat (n * twoPow k) := by
  obtain ⟨r, hr, hunits⟩ := ofNat_exact (twoPow_le_twoPow hk)
  have hden : 0 < unitsPerOne * unitsPerOne := Nat.mul_pos unitsPerOne_pos unitsPerOne_pos
  rw [hr]
  by_cases hzero : n = 0
  · rw [hzero, Nat.zero_mul, ofNat_zero, zero_mul_finite]
  have hscaled := nearestIndex_mul_twoPow hzero k
  by_cases hfinite : nearestIndex n 1 < finiteCount
  · rw [ofNat_of_lt hfinite, mul, ofRatio, ofNat, ofRatio, hscaled]
    have hexact := units_add_twoPow (fractionCount_le_nearestIndex hzero) k
    have hindex : nearestIndex (units (nearestIndex n 1) * units r) (unitsPerOne * unitsPerOne) =
        nearestIndex n 1 + k * fractionCount := by
      apply nearestIndex_of_exact hden
      rw [hexact, hunits, Nat.mul_assoc, Nat.mul_assoc, Nat.mul_assoc]
    rw [hindex]
    rfl
  · have hle := Nat.not_lt.mp hfinite
    have hr0 : (r.val == 0) = false := by
      rw [beq_eq_false_iff_ne]
      intro hr0
      rw [hr0, units_of_lt fractionCount_pos] at hunits
      exact Nat.mul_ne_zero (twoPow_pos k).ne' unitsPerOne_pos.ne' hunits.symm
    rw [ofNat_of_le hle, ofNat_of_le (by omega), mul, hr0]
    rfl

/-- A digit is added as long as there are at most 53 bits; later ones are lost. -/
theorem step_ofNat (n : Nat) {k d : Nat} (hk : k ≤ 52) (hd : d < twoPow k) :
    ((ofNat n).mul (ofNat (twoPow k))).add (ofNat d) =
      ofNat (n * twoPow k + if n < exactBound then d else 0) := by
  have hbound : twoPow k ≤ exactBound := twoPow_le_twoPow (by omega)
  obtain ⟨r, hr, hunits⟩ := ofNat_exact (hd.le.trans hbound)
  rw [ofNat_mul_twoPow n (by omega), hr]
  by_cases hn : n < exactBound
  · rw [if_pos hn]
    obtain ⟨m, hm, hexact⟩ := ofNat_exact_mul hn.le hk
    have hone := nearestIndex_mul_mul (n * twoPow k + d) Nat.one_pos unitsPerOne_pos
    rw [Nat.one_mul] at hone
    rw [hm, add_positive, hexact, hunits, ← Nat.add_mul, ofRatio, hone]
    rfl
  · rw [if_neg hn, Nat.add_zero]
    have hzero := ne_zero_of_exactBound_le (Nat.not_lt.mp hn)
    have hlost : 2 * units r < gap (nearestIndex (n * twoPow k) 1) := by
      have hdouble : twoPow (k + 1) = twoPow k * 2 := twoPow_add k 1
      have hsplit : twoPow (k + 1 + 1074) = twoPow (k + 1) * unitsPerOne := twoPow_add (k + 1) 1074
      have hlt : 2 * d * unitsPerOne < twoPow (k + 1) * unitsPerOne :=
        Nat.mul_lt_mul_of_pos_right (by omega) unitsPerOne_pos
      have hgap := gap_of_exactBound_le (Nat.not_lt.mp hn) k
      rw [hsplit] at hgap
      rw [hunits, ← Nat.mul_assoc, nearestIndex_mul_twoPow hzero]
      exact hlt.trans_le hgap
    by_cases hfinite : nearestIndex (n * twoPow k) 1 < finiteCount
    · rw [ofNat_of_lt hfinite]
      exact add_of_lt_gap hlost
    · rw [ofNat_of_le (Nat.not_lt.mp hfinite), add]

end Binary64

end SchemaGen.Numeric
