import SchemaGen.Numeric.Binary64

namespace SchemaGen.Numeric

theorem fractionCount_pos : 0 < fractionCount := by decide

theorem twoPow_pos (n : Nat) : 0 < twoPow n := Nat.two_pow_pos n

theorem twoPow_add (m n : Nat) : twoPow (m + n) = twoPow m * twoPow n := Nat.pow_add 2 m n

theorem unitsPerOne_pos : 0 < unitsPerOne := twoPow_pos 1074

theorem roundHalfEven_mul (n : Nat) {den : Nat} (h : 0 < den) :
    roundHalfEven (n * den) den = n := by
  simp [roundHalfEven, Nat.mul_div_cancel n h, h]

/-- A magnitude past the first exponent, by its exponent and fraction. -/
theorem units_normal (exponent : Nat) {fraction : Nat} (h : fraction < fractionCount) :
    units ((exponent + 1) * fractionCount + fraction) =
      (fractionCount + fraction) * twoPow exponent := by
  have hge : ¬ (exponent + 1) * fractionCount + fraction < fractionCount := by
    rw [Nat.add_mul, Nat.one_mul]
    omega
  have hdiv : ((exponent + 1) * fractionCount + fraction) / fractionCount = exponent + 1 := by
    rw [Nat.mul_comm, Nat.mul_add_div fractionCount_pos, Nat.div_eq_of_lt h, Nat.add_zero]
  rw [units, if_neg hge, hdiv, Nat.mul_add_mod', Nat.mod_eq_of_lt h, Nat.add_sub_cancel]

theorem exists_normal {magnitude : Nat} (h : fractionCount ≤ magnitude) :
    ∃ exponent fraction, fraction < fractionCount ∧
      magnitude = (exponent + 1) * fractionCount + fraction := by
  have hpos : 0 < magnitude / fractionCount := Nat.div_pos h fractionCount_pos
  refine ⟨magnitude / fractionCount - 1, magnitude % fractionCount,
    Nat.mod_lt _ fractionCount_pos, ?_⟩
  rw [Nat.sub_add_cancel hpos, Nat.mul_comm, Nat.div_add_mod]

/-- The significand of a number has 53 bits. -/
theorem log2_significand (exponent : Nat) {fraction : Nat} (h : fraction < fractionCount) :
    ((fractionCount + fraction) * twoPow exponent).log2 = 52 + exponent := by
  have hpos := twoPow_pos exponent
  have hne : (fractionCount + fraction) * twoPow exponent ≠ 0 :=
    Nat.ne_of_gt (Nat.mul_pos (Nat.add_pos_left fractionCount_pos _) hpos)
  have hlow : 2 ^ (52 + exponent) = fractionCount * twoPow exponent := twoPow_add 52 exponent
  rw [Nat.log2_eq_iff hne, Nat.pow_succ, hlow, Nat.mul_right_comm]
  constructor
  · exact Nat.mul_le_mul_right _ (Nat.le_add_right _ _)
  · exact Nat.mul_lt_mul_of_pos_right (by omega) hpos

/-- A fraction that is the value of a magnitude is rounded to it. -/
theorem nearestIndex_of_exact {num den magnitude : Nat} (hd : 0 < den)
    (h : num * unitsPerOne = units magnitude * den) : nearestIndex num den = magnitude := by
  have hdiv : num * unitsPerOne / den = units magnitude := by
    rw [h, Nat.mul_div_cancel _ hd]
  unfold nearestIndex
  rw [hdiv, h]
  dsimp only
  by_cases hm : magnitude < fractionCount
  · have hunits : units magnitude = magnitude := if_pos hm
    have hlog : magnitude.log2 < 52 := by
      by_cases hz : magnitude = 0
      · rw [hz]
        decide
      · exact (Nat.log2_lt hz).mpr hm
    have hshift : magnitude.log2 - 52 = 0 := by omega
    have hone : den * twoPow 0 = den := Nat.mul_one den
    rw [hunits, hshift, hone, roundHalfEven_mul _ hd, Nat.zero_mul, Nat.add_zero]
  · obtain ⟨exponent, fraction, hf, rfl⟩ := exists_normal (Nat.le_of_not_lt hm)
    have hshift : 52 + exponent - 52 = exponent := Nat.add_sub_cancel_left 52 exponent
    rw [units_normal exponent hf, log2_significand exponent hf, hshift, Nat.mul_assoc,
      Nat.mul_comm (twoPow exponent), roundHalfEven_mul _ (Nat.mul_pos hd (twoPow_pos _)),
      Nat.add_mul, Nat.one_mul]
    omega

/-- The largest integer up to which each is the value of a number. -/
def exactBound : Nat := twoPow 53

theorem units_of_significand (exponent : Nat) {n : Nat} (hlow : fractionCount ≤ n)
    (hhigh : n < 2 * fractionCount) :
    units ((exponent + 1) * fractionCount + (n - fractionCount)) = n * twoPow exponent := by
  rw [units_normal exponent (by omega), Nat.add_sub_cancel' hlow]

theorem index_lt_finiteCount {exponent fraction : Nat} (hf : fraction < fractionCount) :
    (exponent + 1) * fractionCount + fraction < finiteCount ↔ exponent < 2046 := by
  rw [finiteCount]
  constructor
  · intro h
    refine Nat.lt_of_not_le fun hge => ?_
    have hle : 2047 * fractionCount ≤ (exponent + 1) * fractionCount :=
      Nat.mul_le_mul_right fractionCount (by omega)
    omega
  · intro h
    have hle : (exponent + 1 + 1) * fractionCount ≤ 2047 * fractionCount :=
      Nat.mul_le_mul_right fractionCount (by omega)
    rw [Nat.succ_mul (exponent + 1)] at hle
    omega

theorem units_significand_exponent {k n : Nat} (hk : k ≤ 52) :
    n * twoPow (52 - k) * twoPow (1022 + k) = n * unitsPerOne := by
  have hsum : 52 - k + (1022 + k) = 1074 := by omega
  rw [Nat.mul_assoc, ← twoPow_add, hsum, unitsPerOne]

/-- Each integer of 53 bits is the value of a magnitude. -/
theorem exists_units {n : Nat} (h : n ≤ exactBound) :
    ∃ m, m < finiteCount ∧ units m = n * unitsPerOne := by
  by_cases hz : n = 0
  · subst hz
    exact ⟨0, by decide, (Nat.zero_mul unitsPerOne).symm⟩
  by_cases htop : n = exactBound
  · subst htop
    have hlt : fractionCount < 2 * fractionCount := by decide
    have hunits := units_of_significand 1075 (Nat.le_refl fractionCount) hlt
    refine ⟨_, (index_lt_finiteCount (by omega)).mpr (by decide), hunits.trans ?_⟩
    rw [exactBound, unitsPerOne, fractionCount, ← twoPow_add, ← twoPow_add]
  · have hk : n.log2 < 53 := (Nat.log2_lt hz).mpr (Nat.lt_of_le_of_ne h htop)
    have hlow : twoPow n.log2 ≤ n := Nat.log2_self_le hz
    have hhigh : n < twoPow (n.log2 + 1) := Nat.lt_log2_self
    generalize n.log2 = k at hk hlow hhigh
    have hpos := twoPow_pos (52 - k)
    have hs : fractionCount ≤ n * twoPow (52 - k) := by
      have hsplit : fractionCount = twoPow k * twoPow (52 - k) := by
        rw [← twoPow_add, Nat.add_sub_cancel' (Nat.le_of_lt_succ hk), fractionCount]
      rw [hsplit]
      exact Nat.mul_le_mul_right _ hlow
    have ht : n * twoPow (52 - k) < 2 * fractionCount := by
      have hsplit : 2 * fractionCount = twoPow (k + 1) * twoPow (52 - k) := by
        have hsum : k + 1 + (52 - k) = 1 + 52 := by omega
        rw [← twoPow_add, hsum, twoPow_add, fractionCount]
        rfl
      rw [hsplit]
      exact Nat.mul_lt_mul_of_pos_right hhigh hpos
    have hunits := units_of_significand (1022 + k) hs ht
    rw [units_significand_exponent (Nat.le_of_lt_succ hk)] at hunits
    exact ⟨_, (index_lt_finiteCount (by omega)).mpr (by omega), hunits⟩

namespace Binary64

/-- A number whose value is an integer. Zero has both signs. -/
def Represents (x : Binary64) (v : Int) : Prop :=
  ∃ negative m, x = .finite negative m ∧ signedUnits negative m = v * unitsPerOne

/-- An integer by its sign and its magnitude. -/
def signed (negative : Bool) (n : Nat) : Int := if negative then -(n : Int) else n

theorem signedUnits_eq (negative : Bool) (m : Nat) :
    signedUnits negative m = signed negative (units m) := rfl

theorem signed_mul_natCast (negative : Bool) (m n : Nat) :
    signed negative (m * n) = signed negative m * n := by
  cases negative with
  | false => exact Int.natCast_mul m n
  | true => exact (congrArg Neg.neg (Int.natCast_mul m n)).trans (Int.neg_mul m n).symm

theorem ofIndex_represents (negative : Bool) {n index : Nat} (h : index < finiteCount)
    (hu : units index = n * unitsPerOne) :
    (ofIndex negative index).Represents (signed negative n) := by
  refine ⟨negative, ⟨index, h⟩, dif_pos h, ?_⟩
  rw [signedUnits_eq, hu, signed_mul_natCast]

/-- A fraction that is an integer of 53 bits is not rounded. -/
theorem ofRatio_represents (negative : Bool) {num den n : Nat} (hd : 0 < den)
    (hn : n ≤ exactBound) (h : num = n * den) :
    (ofRatio negative num den).Represents (signed negative n) := by
  obtain ⟨index, hlt, hu⟩ := exists_units hn
  have hexact : num * unitsPerOne = units index * den := by
    rw [h, hu, Nat.mul_right_comm]
  rw [ofRatio, nearestIndex_of_exact hd hexact]
  exact ofIndex_represents negative hlt hu

theorem ofNat_represents {n : Nat} (h : n ≤ exactBound) : (ofNat n).Represents n :=
  ofRatio_represents false Nat.one_pos h (Nat.mul_one n).symm

theorem zero_represents : zero.Represents 0 :=
  ⟨false, ⟨0, by decide⟩, rfl, (Int.zero_mul _).symm⟩

theorem natAbs_signedUnits (negative : Bool) (m : Nat) :
    (signedUnits negative m).natAbs = units m := by
  cases negative <;> simp [signedUnits]

theorem signed_mul (s t : Bool) (m n : Nat) :
    signed (s != t) (m * n) = signed s m * signed t n := by
  cases s <;> cases t <;>
    simp only [signed, Bool.bne_false, Bool.bne_true, Bool.not_true, Bool.not_false,
      Bool.false_eq_true, if_true, if_false, Int.natCast_mul, Int.neg_mul, Int.mul_neg, Int.neg_neg]

theorem signed_natAbs {negative : Bool} {v : Int} (hneg : v < 0 → negative = true)
    (hpos : 0 < v → negative = false) : signed negative v.natAbs = v := by
  unfold signed
  cases negative with
  | false =>
    have hle : ¬ v < 0 := fun hlt => Bool.false_ne_true (hneg hlt)
    rw [if_neg Bool.false_ne_true]
    omega
  | true =>
    have hle : ¬ 0 < v := fun hgt => Bool.false_ne_true (hpos hgt).symm
    rw [if_pos rfl]
    omega

theorem unitsPerOne_int_pos : (0 : Int) < unitsPerOne := Int.natCast_pos.mpr unitsPerOne_pos

section Operations

variable {s t : Bool} {m k : Nat} {a b : Int}

theorem units_of_signedUnits (h : signedUnits s m = a * unitsPerOne) :
    units m = a.natAbs * unitsPerOne := by
  rw [← natAbs_signedUnits s, h, Int.natAbs_mul, Int.natAbs_natCast]

theorem signed_of_signedUnits (h : signedUnits s m = a * unitsPerOne) :
    signed s a.natAbs = a := by
  have hm := units_of_signedUnits h
  have hs : signed s a.natAbs * unitsPerOne = a * unitsPerOne := by
    rw [← h, signedUnits_eq, hm, signed_mul_natCast]
  exact Int.eq_of_mul_eq_mul_right (Int.ne_of_gt unitsPerOne_int_pos) hs

variable {x y : Binary64} (hx : x.Represents a) (hy : y.Represents b)
include hx hy

/-- Products of integers are exact. -/
theorem Represents.mul (h : (a * b).natAbs ≤ exactBound) : (x.mul y).Represents (a * b) := by
  obtain ⟨s, m, rfl, hm⟩ := hx
  obtain ⟨t, k, rfl, hk⟩ := hy
  have hunits : units m * units k = (a * b).natAbs * (unitsPerOne * unitsPerOne) := by
    rw [units_of_signedUnits hm, units_of_signedUnits hk, Int.natAbs_mul, Nat.mul_mul_mul_comm]
  have hsign : signed (s != t) (a * b).natAbs = a * b := by
    rw [Int.natAbs_mul, signed_mul, signed_of_signedUnits hm, signed_of_signedUnits hk]
  have hr := ofRatio_represents (s != t) (Nat.mul_pos unitsPerOne_pos unitsPerOne_pos) h hunits
  rwa [hsign] at hr

/-- Sums of integers are exact. -/
theorem Represents.add (h : (a + b).natAbs ≤ exactBound) : (x.add y).Represents (a + b) := by
  obtain ⟨s, m, rfl, hm⟩ := hx
  obtain ⟨t, k, rfl, hk⟩ := hy
  have hsum : signedUnits s m + signedUnits t k = (a + b) * unitsPerOne := by
    rw [hm, hk, Int.add_mul]
  have hunits : (signedUnits s m + signedUnits t k).natAbs = (a + b).natAbs * unitsPerOne := by
    rw [hsum, Int.natAbs_mul, Int.natAbs_natCast]
  have hr := ofRatio_represents (signedUnits s m + signedUnits t k < 0 ||
    (signedUnits s m + signedUnits t k == 0 && s && t)) unitsPerOne_pos h hunits
  rwa [signed_natAbs] at hr
  · intro hneg
    have hlt := Int.mul_neg_of_neg_of_pos hneg unitsPerOne_int_pos
    rw [hsum, decide_eq_true hlt, Bool.true_or]
  · intro hpos
    have hgt := Int.mul_pos hpos unitsPerOne_int_pos
    rw [hsum, decide_eq_false (Int.not_lt.mpr (Int.le_of_lt hgt)),
      beq_false_of_ne (Int.ne_of_gt hgt)]
    rfl

end Operations

end Binary64
end SchemaGen.Numeric
