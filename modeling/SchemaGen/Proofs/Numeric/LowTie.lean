import SchemaGen.Proofs.Numeric.Accumulated

namespace SchemaGen.Numeric

open Binary64

/-- A number in the middle between two of 53 bits, of which the lower one is even. -/
def IsLowTie (n : Nat) : Prop :=
  2 * (n % twoPow (n.log2 - 52)) = twoPow (n.log2 - 52) ∧ n / twoPow (n.log2 - 52) % 2 = 0

instance (n : Nat) : Decidable (IsLowTie n) := inferInstanceAs (Decidable (_ ∧ _))

section Rest

variable (n den : Nat) {c rest : Nat} (hrest : rest < c)
include hrest

theorem append_div_self : (n * c + rest) / c = n := by
  rw [Nat.mul_comm, Nat.mul_add_div (by omega), Nat.div_eq_of_lt hrest, Nat.add_zero]

theorem append_div : (n * c + rest) / (den * c) = n / den := by
  rw [Nat.mul_comm den, ← Nat.div_div_eq_div_mul, append_div_self n hrest]

theorem append_mod : (n * c + rest) % (den * c) = rest + c * (n % den) := by
  rw [Nat.mul_comm den, Nat.mod_mul, append_div_self n hrest, Nat.mul_comm n, Nat.mul_add_mod,
    Nat.mod_eq_of_lt hrest]

end Rest

/-- What follows a number decides in the middle, and then rounds up. -/
theorem roundHalfEven_append (n : Nat) {den c rest : Nat} (heven : den % 2 = 0)
    (hrest : rest < c) (hne : rest ≠ 0) :
    roundHalfEven (n * c + rest) (den * c) =
      if 2 * (n % den) = den then n / den + 1 else roundHalfEven n den := by
  unfold roundHalfEven
  dsimp only
  rw [append_div n den hrest, append_mod n den hrest]
  generalize n % den = r
  generalize n / den = q
  rcases Nat.lt_trichotomy (2 * r) den with hlt | heq | hgt
  · have hmul : c * (2 * r + 2) ≤ c * den := Nat.mul_le_mul_left c (by omega)
    rw [if_pos (by linarith), if_neg hlt.ne, if_pos hlt]
  · have hmul : den * c = 2 * (c * r) := by rw [← heq]; ring
    rw [if_neg (by omega), if_pos (by omega), if_pos heq]
  · have hmul : c * (den + 1) ≤ c * (2 * r) := Nat.mul_le_mul_left c hgt
    rw [if_neg (by linarith), if_pos (by linarith), if_neg hgt.ne', if_neg hgt.not_gt, if_pos hgt]

theorem roundHalfEven_of_half {num den : Nat} (h : 2 * (num % den) = den) :
    roundHalfEven num den = num / den + num / den % 2 := by
  rcases roundHalfEven_cases num den with ⟨hlt, -⟩ | ⟨hlt, -⟩ | ⟨-, hround⟩
  · omega
  · omega
  · exact hround

theorem ofIndex_eq_iff {a b : Nat} :
    ofIndex false a = ofIndex false b ↔ a = b ∨ finiteCount ≤ a ∧ finiteCount ≤ b := by
  unfold ofIndex
  split <;> split <;> simp <;> omega

section Append

variable {n s rest : Nat} (hn : exactBound ≤ n) (hrest : rest < twoPow s)
include hn

theorem log2_ge : 53 ≤ n.log2 := (Nat.le_log2 (ne_zero_of_exactBound_le hn)).mpr hn

/-- At least one bit of the number is dropped. -/
theorem exists_drop : ∃ k, n.log2 - 52 = k + 1 := by
  have hlog := log2_ge hn
  exact ⟨n.log2 - 53, by omega⟩

theorem significand_bounds :
    fractionCount ≤ n / twoPow (n.log2 - 52) ∧ n / twoPow (n.log2 - 52) < 2 * fractionCount := by
  have hlog := log2_ge hn
  obtain ⟨hlt, hle⟩ := quotient_bounds n Nat.one_pos
  rw [Nat.div_one, Nat.one_mul] at hlt hle
  refine ⟨?_, hlt⟩
  rw [Nat.le_div_iff_mul_le (twoPow_pos _)]
  exact hle.resolve_left (by omega)

include hrest

theorem nearestIndex_append :
    nearestIndex (n * twoPow s + rest) 1 =
      roundHalfEven (n * twoPow s + rest) (twoPow (n.log2 - 52) * twoPow s) +
        (n.log2 - 52 + s + 1074) * fractionCount := by
  have hlog := log2_ge hn
  have hne := ne_zero_of_exactBound_le hn
  have hle : fractionCount ≤ n * twoPow s + rest := by
    have hbound : fractionCount ≤ exactBound := twoPow_le_twoPow (by decide)
    have hmul := Nat.le_mul_of_pos_right n (twoPow_pos s)
    omega
  have hdrop : n.log2 + s - 52 = n.log2 - 52 + s := by omega
  rw [nearestIndex_of_le hle, log2_append hne hrest, hdrop, twoPow_add]

theorem append_lt_iff :
    n * twoPow s + rest < twoPow 1024 ↔ n.log2 - 52 + s < 972 := by
  have hlog := log2_ge hn
  have hne := ne_zero_of_exactBound_le hn
  have hpos := Nat.mul_pos (Nat.pos_of_ne_zero hne) (twoPow_pos s)
  rw [← log2_lt_iff (by omega), log2_append hne hrest]
  omega

/-- Digits that are lost behind 53 bits make a difference exactly in the middle between two finite
numbers of which the lower one is even. -/
theorem ofNat_append_iff :
    ofNat (n * twoPow s) = ofNat (n * twoPow s + rest) ↔
      ¬ (n * twoPow s + rest < twoPow 1024 ∧ IsLowTie n ∧ rest ≠ 0) := by
  by_cases hzero : rest = 0
  · simp [hzero]
  have hlog := log2_ge hn
  obtain ⟨hlow, hhigh⟩ := significand_bounds hn
  have hkept := nearestIndex_append hn (twoPow_pos s)
  have hall := nearestIndex_append hn hrest
  have heven : twoPow (n.log2 - 52) % 2 = 0 := by
    obtain ⟨k, hk⟩ := exists_drop hn
    rw [hk, twoPow_add]
    exact Nat.mul_mod_left _ 2
  rw [Nat.add_zero, roundHalfEven_mul_mul _ _ (twoPow_pos s)] at hkept
  rw [roundHalfEven_append n heven hrest hzero] at hall
  rw [append_lt_iff hn hrest, ofNat, ofNat, ofRatio, ofRatio, hkept, hall, ofIndex_eq_iff, IsLowTie]
  generalize n.log2 - 52 = drop at *
  by_cases htie : 2 * (n % twoPow drop) = twoPow drop
  · have hindex : n / twoPow drop + (drop + s + 1074) * fractionCount =
        (drop + s + 1074 + 1) * fractionCount + (n / twoPow drop - fractionCount) := by
      rw [Nat.succ_mul (drop + s + 1074)]
      omega
    have hfinite : n / twoPow drop + (drop + s + 1074) * fractionCount < finiteCount ↔
        drop + s < 972 := by
      rw [hindex, index_lt_finiteCount (by omega)]
      omega
    rw [if_pos htie, roundHalfEven_of_half htie]
    omega
  · rw [if_neg htie]
    simp [htie]

theorem IsLowTie.of_append (h : IsLowTie (n * twoPow s + rest)) : IsLowTie n := by
  have hlog := log2_ge hn
  have hne := ne_zero_of_exactBound_le hn
  have hdrop : n.log2 + s - 52 = n.log2 - 52 + s := by omega
  obtain ⟨k, hk⟩ := exists_drop hn
  have hdouble : twoPow (k + 1) = twoPow k * 2 := twoPow_add k 1
  obtain ⟨hmid, heven⟩ := h
  rw [log2_append hne hrest, hdrop, twoPow_add, append_mod n _ hrest, hk] at hmid
  rw [log2_append hne hrest, hdrop, twoPow_add, append_div n _ hrest] at heven
  rw [IsLowTie, hk]
  rw [hk] at heven
  refine ⟨?_, heven⟩
  generalize n % twoPow (k + 1) = r at *
  -- The middle is a multiple of what is added, so that nothing is added.
  have hrest0 : rest = twoPow s * (twoPow k - r) := by
    rw [Nat.mul_sub]
    have hcomm : twoPow (k + 1) * twoPow s = 2 * (twoPow s * twoPow k) := by rw [hdouble]; ring
    omega
  have hzero : twoPow k - r = 0 := by
    by_contra hpos
    have hmul := Nat.le_mul_of_pos_right (twoPow s) (Nat.pos_of_ne_zero hpos)
    omega
  rw [hzero, Nat.mul_zero] at hrest0
  rw [hrest0, Nat.zero_add] at hmid
  have hcancel : twoPow s * (2 * r) = twoPow s * twoPow (k + 1) := by linarith
  exact Nat.eq_of_mul_eq_mul_left (twoPow_pos s) hcancel

end Append

theorem IsLowTie.le {n : Nat} (h : IsLowTie n) : exactBound ≤ n := by
  by_contra hlt
  have hdrop : n.log2 - 52 = 0 := by
    by_cases hzero : n = 0
    · rw [hzero]
      decide
    · have hlog := (log2_lt_iff hzero 53).mpr (Nat.not_le.mp hlt)
      omega
  have hmid := h.1
  rw [hdrop] at hmid
  have hone : twoPow 0 = 1 := by decide
  omega

end SchemaGen.Numeric
