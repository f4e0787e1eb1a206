import SchemaGen.Proofs.Numeric.DecimalValue
import SchemaGen.Proofs.Numeric.Numeral

namespace SchemaGen.Numeric

open Decimal (ten_zpow_pos)

/-- The decimal with a given last place at a value or next below it. -/
def floorAt (magnitude : Nat) (exponent : Int) : Decimal :=
  ⟨units magnitude * tenPow (-exponent).toNat / (unitsPerOne * tenPow exponent.toNat), exponent⟩

/-- The decimal that is one more in its last place. -/
def Decimal.next (d : Decimal) : Decimal := ⟨d.digits + 1, d.exponent⟩

theorem Decimal.value_next (d : Decimal) : d.next.value = d.value + 10 ^ d.exponent := by
  rw [next, Decimal.value, Decimal.value, Nat.cast_add, Nat.cast_one, add_mul, one_mul]

theorem value_eq_mul_zpow (m : Nat) (e : Int) :
    value m = (units m * tenPow (-e).toNat : ℕ) / (unitsPerOne * tenPow e.toNat : ℕ) * 10 ^ e := by
  have hU := unitsPerOne_rat_pos.ne'
  rw [value, Nat.cast_mul, Nat.cast_mul]
  generalize (unitsPerOne : ℚ) = U at hU ⊢
  unfold tenPow
  rcases Int.le_total 0 e with h | h
  · obtain ⟨k, rfl⟩ := Int.eq_ofNat_of_zero_le h
    simp
    field_simp
  · obtain ⟨k, rfl⟩ := Int.exists_eq_neg_ofNat h
    simp
    field_simp

theorem floorAt_bounds (m : Nat) (e : Int) :
    (floorAt m e).value ≤ value m ∧ value m < (floorAt m e).next.value := by
  have hten := ten_zpow_pos e
  have hden : 0 < unitsPerOne * tenPow e.toNat :=
    Nat.mul_pos unitsPerOne_pos (Nat.pow_pos (by decide))
  rw [Decimal.value_next, value_eq_mul_zpow m e]
  unfold floorAt Decimal.value
  dsimp only
  have hcast : (0 : ℚ) < (unitsPerOne * tenPow e.toNat : ℕ) := by exact_mod_cast hden
  have hlow := Nat.div_mul_le_self (units m * tenPow (-e).toNat) (unitsPerOne * tenPow e.toNat)
  have hhigh : units m * tenPow (-e).toNat <
      (units m * tenPow (-e).toNat / (unitsPerOne * tenPow e.toNat) + 1) *
        (unitsPerOne * tenPow e.toNat) := Nat.lt_mul_of_div_lt (Nat.lt_succ_self _) hden
  generalize units m * tenPow (-e).toNat = num at *
  generalize unitsPerOne * tenPow e.toNat = den at *
  constructor
  · apply mul_le_mul_of_nonneg_right _ hten.le
    rw [le_div_iff₀ hcast]
    exact_mod_cast hlow
  · rw [← add_one_mul]
    apply mul_lt_mul_of_pos_right _ hten
    rw [div_lt_iff₀ hcast]
    exact_mod_cast hhigh

theorem magnitudeScale_eq (m : Nat) :
    magnitudeScale m = digitCount (floorAt m (-324)).digits + (-324) := by
  have hup : (-(-324) : Int).toNat = 324 := rfl
  have hdown : (-324 : Int).toNat = 0 := rfl
  have hone : tenPow 0 = 1 := rfl
  rw [magnitudeScale, floorAt, hup, hdown, hone, Nat.mul_one, Int.sub_eq_add_neg]

/-- No positive value is below the place of 10^-324. -/
theorem floorAt_ne_zero {m : Nat} (h : m ≠ 0) : (floorAt m (-324)).digits ≠ 0 := by
  intro hz
  have hbelow := (floorAt_bounds m (-324)).2
  have hleast := value_strictMono.monotone (Nat.one_le_iff_ne_zero.mpr h)
  have hone : units 1 = 1 := units_of_lt (by decide)
  have hle : unitsPerOne ≤ 10 ^ 324 := by decide +kernel
  have hcast : (unitsPerOne : ℚ) ≤ 10 ^ 324 := by exact_mod_cast hle
  have hplace : (10 : ℚ) ^ (-324 : Int) ≤ value 1 := by
    rw [value, hone, Nat.cast_one, zpow_neg, ← one_div]
    apply one_div_le_one_div_of_le unitsPerOne_rat_pos
    exact_mod_cast hcast
  rw [Decimal.value_next, Decimal.value, hz, Nat.cast_zero, zero_mul, zero_add] at hbelow
  exact absurd (hplace.trans hleast) (not_le.mpr hbelow)

/-- The scale of a value is the place before its first digit. -/
theorem magnitudeScale_bounds {m : Nat} (h : m ≠ 0) :
    10 ^ (magnitudeScale m - 1) ≤ value m ∧ value m < 10 ^ magnitudeScale m := by
  obtain ⟨hlow, hhigh⟩ := floorAt_bounds m (-324)
  have hfirst := Decimal.le_value (floorAt_ne_zero h)
  have hdigits := lt_pow_digitCount (floorAt m (-324)).digits
  have hnext : (floorAt m (-324)).next.value ≤
      10 ^ (digitCount (floorAt m (-324)).digits + (-324) : Int) := by
    rw [zpow_add₀ (by norm_num), zpow_natCast]
    apply mul_le_mul_of_nonneg_right _ (ten_zpow_pos _).le
    exact_mod_cast hdigits
  rw [magnitudeScale_eq]
  exact ⟨hfirst.trans hlow, hhigh.trans_le hnext⟩

/-- A decimal with few digits lies at or before one neighbour of a value, or at or behind the
other. The neighbours have as many digits as the row, and one of more places would have too few
digits to reach the value. -/
theorem apart_of_digitCount_le {m count : Nat} {d : Decimal} (h : m ≠ 0) (hcount : count ≠ 0)
    (hd : digitCount d.digits ≤ count) :
    d.value ≤ (floorAt m (magnitudeScale m - count)).value ∨
      (floorAt m (magnitudeScale m - count)).next.value ≤ d.value := by
  obtain ⟨hfirst, -⟩ := magnitudeScale_bounds h
  have hhigh := (floorAt_bounds m (magnitudeScale m - count)).2
  generalize magnitudeScale m = scale at *
  have hexponent : (floorAt m (scale - count)).exponent = scale - count := rfl
  generalize floorAt m (scale - count) = below at *
  have hten := ten_zpow_pos below.exponent
  by_cases hplace : below.exponent ≤ d.exponent
  · -- The decimal stands on the same places.
    obtain ⟨k, hk⟩ := Int.eq_ofNat_of_zero_le (Int.sub_nonneg_of_le hplace)
    have hvalue : d.value = (d.digits * 10 ^ k : ℕ) * 10 ^ below.exponent := by
      have hsum : d.exponent = k + below.exponent := by omega
      rw [Decimal.value, hsum, zpow_add₀ (by norm_num), zpow_natCast]
      push_cast
      ring
    rw [hvalue, Decimal.value_next, Decimal.value, ← add_one_mul]
    rcases Nat.lt_or_ge below.digits (d.digits * 10 ^ k) with hlt | hge
    · right
      exact mul_le_mul_of_nonneg_right (by exact_mod_cast hlt) hten.le
    · left
      exact mul_le_mul_of_nonneg_right (by exact_mod_cast hge) hten.le
  · left
    have hsmall : d.value ≤ 10 ^ (scale - 1) :=
      d.value_lt.le.trans (zpow_le_zpow_right₀ (by norm_num) (by omega))
    -- The power of ten before the value is a decimal of these places itself.
    have hpower : (10 : ℚ) ^ (scale - 1) = (10 ^ (count - 1) : ℕ) * 10 ^ below.exponent := by
      have hsum : scale - 1 = (count - 1 : Nat) + below.exponent := by omega
      rw [hsum, zpow_add₀ (by norm_num), zpow_natCast, Nat.cast_pow, Nat.cast_ofNat]
    have hle : 10 ^ (count - 1) ≤ below.digits := by
      have hlt := hfirst.trans_lt hhigh
      rw [hpower, Decimal.value_next, Decimal.value, ← add_one_mul] at hlt
      have hcast := lt_of_mul_lt_mul_right hlt hten.le
      have hnat : 10 ^ (count - 1) < below.digits + 1 := by exact_mod_cast hcast
      omega
    rw [hpower] at hsmall
    apply hsmall.trans
    exact mul_le_mul_of_nonneg_right (by exact_mod_cast hle) hten.le

/-- The remainder says how far a value is above the decimal below it, in its last place. -/
theorem value_sub_floorAt (m : Nat) (e : Int) :
    value m - (floorAt m e).value =
      (units m * tenPow (-e).toNat % (unitsPerOne * tenPow e.toNat) : ℕ) /
        (unitsPerOne * tenPow e.toNat : ℕ) * 10 ^ e := by
  have hden : 0 < unitsPerOne * tenPow e.toNat :=
    Nat.mul_pos unitsPerOne_pos (Nat.pow_pos (by decide))
  rw [value_eq_mul_zpow m e, div_eq_div_add_mod _ hden]
  unfold floorAt Decimal.value
  dsimp only
  rw [add_mul, add_sub_cancel_left]

/-- Which of two decimals a remainder is nearer to. -/
theorem half_of_remainder (rest : Nat) {den : Nat} (hd : 0 < den) (e : Int) :
    (2 * rest ≤ den → 2 * ((rest : ℚ) / den * 10 ^ e) ≤ 10 ^ e) ∧
      (den ≤ 2 * rest → 10 ^ e ≤ 2 * ((rest : ℚ) / den * 10 ^ e)) := by
  have hten := ten_zpow_pos e
  have hcast : (0 : ℚ) < den := by exact_mod_cast hd
  have hdouble : 2 * ((rest : ℚ) / den * 10 ^ e) = (2 * rest : ℕ) / den * 10 ^ e := by
    push_cast
    ring
  rw [hdouble]
  constructor
  · intro h
    have hle : ((2 * rest : ℕ) : ℚ) / den ≤ 1 := by
      rw [div_le_one hcast]
      exact_mod_cast h
    exact (mul_le_mul_of_nonneg_right hle hten.le).trans_eq (one_mul _)
  · intro h
    have hle : 1 ≤ ((2 * rest : ℕ) : ℚ) / den := by
      rw [one_le_div hcast]
      exact_mod_cast h
    exact (one_mul _).symm.trans_le (mul_le_mul_of_nonneg_right hle hten.le)

theorem floorAt_nearer (m : Nat) (e : Int) :
    let rest := units m * tenPow (-e).toNat % (unitsPerOne * tenPow e.toNat)
    (2 * rest ≤ unitsPerOne * tenPow e.toNat →
      |(floorAt m e).value - value m| ≤ |(floorAt m e).next.value - value m|) ∧
    (unitsPerOne * tenPow e.toNat ≤ 2 * rest →
      |(floorAt m e).next.value - value m| ≤ |(floorAt m e).value - value m|) := by
  intro rest
  have hden : 0 < unitsPerOne * tenPow e.toNat :=
    Nat.mul_pos unitsPerOne_pos (Nat.pow_pos (by decide))
  have hoff := value_sub_floorAt m e
  obtain ⟨hlow, hhigh⟩ := floorAt_bounds m e
  obtain ⟨hdown, hup⟩ := half_of_remainder rest hden e
  rw [← hoff] at hdown hup
  have hnext : (floorAt m e).next.value = (floorAt m e).value + 10 ^ e := Decimal.value_next _
  rw [abs_of_nonpos (sub_nonpos.mpr hlow), abs_of_pos (sub_pos.mpr hhigh), hnext]
  constructor
  · intro h
    have hle := hdown h
    linarith
  · intro h
    have hle := hup h
    linarith

section Candidate

variable {tie : Tie} {m count : Nat}

/-- A decimal is no farther from a value than each neighbour of it that is read as it. -/
def IsNearestNeighbour (m : Nat) (below d : Decimal) : Prop :=
  (below.nearestIndex = m → |d.value - value m| ≤ |below.value - value m|) ∧
    (below.next.nearestIndex = m → |d.value - value m| ≤ |below.next.value - value m|)

/-- The candidate, if there is one, is a neighbour that is read as the value, and the nearer one if
both are. -/
theorem candidate?_spec {d : Decimal} (hd : candidate? tie m count = some d) :
    let below := floorAt m (magnitudeScale m - count)
    (d = below ∨ d = below.next) ∧ d.nearestIndex = m ∧ IsNearestNeighbour m below d := by
  generalize hf : candidate? = f at hd
  delta candidate? at hf
  subst hf
  dsimp -zeta only at hd
  extract_lets exponent num den below above rest at hd
  intro lower
  obtain ⟨hdown, hup⟩ : (rest ≤ den → |lower.value - value m| ≤ |lower.next.value - value m|) ∧
      (den ≤ rest → |lower.next.value - value m| ≤ |lower.value - value m|) :=
    floorAt_nearer m exponent
  have hbelow : below = lower := rfl
  have habove : above = lower.next := rfl
  clear_value below above rest den lower
  subst hbelow habove
  split at hd
  · cases hd
  · next hb ha =>
    cases hd
    rw [beq_iff_eq] at hb
    rw [beq_eq_false_iff_ne] at ha
    exact ⟨.inl rfl, hb, fun _ => le_rfl, fun h => absurd h ha⟩
  · next hb ha =>
    cases hd
    rw [beq_iff_eq] at ha
    rw [beq_eq_false_iff_ne] at hb
    exact ⟨.inr rfl, ha, fun h => absurd h hb, fun _ => le_rfl⟩
  · next hb ha =>
    rw [beq_iff_eq] at hb ha
    have hor : (d = below ∧ rest ≤ den) ∨ (d = below.next ∧ den ≤ rest) := by grind
    rcases hor with ⟨rfl, hle⟩ | ⟨rfl, hle⟩
    · exact ⟨.inl rfl, hb, fun _ => le_rfl, fun _ => hdown hle⟩
    · exact ⟨.inr rfl, ha, fun _ => hup hle, fun _ => le_rfl⟩

/-- There is a candidate if a neighbour is read as the value. -/
theorem candidate?_ne_none
    (h : (floorAt m (magnitudeScale m - count)).nearestIndex = m ∨
      (floorAt m (magnitudeScale m - count)).next.nearestIndex = m) :
    candidate? tie m count ≠ none := by
  intro hnone
  generalize hf : candidate? = f at hnone
  delta candidate? at hf
  subst hf
  dsimp -zeta only at hnone
  extract_lets exponent num den below above rest at hnone
  have hread : below.nearestIndex = m ∨ above.nearestIndex = m := h
  clear_value below above rest den
  split at hnone
  · next hb ha =>
    rw [beq_eq_false_iff_ne] at hb ha
    exact hread.elim hb ha
  · cases hnone
  · cases hnone
  · grind

end Candidate

section Shortest

variable {tie : Tie} {m count : Nat} (hm : m < finiteCount) (hne : m ≠ 0)
include hm

/-- What lies between a value and a decimal that is read as it is read as it too. -/
theorem reads_between {d e : Decimal} (hd : d.nearestIndex = m)
    (h : d.value ≤ e.value ∧ e.value ≤ value m ∨ value m ≤ e.value ∧ e.value ≤ d.value) :
    e.nearestIndex = m := by
  rw [Decimal.nearestIndex_eq_iff hm] at hd ⊢
  rcases h with ⟨hlow, hhigh⟩ | ⟨hlow, hhigh⟩
  · exact hd.between (isNearest_value m) e.value_nonneg hlow hhigh
  · exact (isNearest_value m).between hd e.value_nonneg hlow hhigh

include hne

/-- A decimal with few digits that is read as a value has a neighbour of the value between. -/
theorem neighbour_of_reads (hcount : count ≠ 0) {d : Decimal} (hd : d.nearestIndex = m)
    (hdigits : digitCount d.digits ≤ count) :
    ∃ e, (e = floorAt m (magnitudeScale m - count) ∨
        e = (floorAt m (magnitudeScale m - count)).next) ∧
      e.nearestIndex = m ∧ |e.value - value m| ≤ |d.value - value m| := by
  obtain ⟨hlow, hhigh⟩ := floorAt_bounds m (magnitudeScale m - count)
  rcases apart_of_digitCount_le hne hcount hdigits with hbelow | habove
  · refine ⟨_, .inl rfl, reads_between hm hd (.inl ⟨hbelow, hlow⟩), ?_⟩
    rw [abs_of_nonpos (sub_nonpos.mpr hlow), abs_of_nonpos (sub_nonpos.mpr (hbelow.trans hlow))]
    linarith
  · refine ⟨_, .inr rfl, reads_between hm hd (.inr ⟨hhigh.le, habove⟩), ?_⟩
    rw [abs_of_pos (sub_pos.mpr hhigh), abs_of_pos (sub_pos.mpr (hhigh.trans_le habove))]
    linarith

/-- With 17 digits one of the neighbours is read as the value: it is half a place away at most, and
other values are more than a place away. -/
theorem seventeen_digits : ∃ e, (e = floorAt m (magnitudeScale m - (17 : Nat)) ∨
    e = (floorAt m (magnitudeScale m - (17 : Nat))).next) ∧ e.nearestIndex = m := by
  obtain ⟨hlow, hhigh⟩ := floorAt_bounds m (magnitudeScale m - (17 : Nat))
  obtain ⟨hfirst, -⟩ := magnitudeScale_bounds hne
  have hexponent : (floorAt m (magnitudeScale m - (17 : Nat))).exponent =
    magnitudeScale m - (17 : Nat) := rfl
  generalize floorAt m (magnitudeScale m - (17 : Nat)) = below at *
  have hnext := below.value_next
  have hplace := ten_zpow_pos below.exponent
  have hpower : (10 : ℚ) ^ (magnitudeScale m - 1) = 10 ^ 16 * 10 ^ below.exponent := by
    have hsum : magnitudeScale m - 1 = (16 : Nat) + below.exponent := by omega
    rw [hsum, zpow_add₀ (by norm_num), zpow_natCast]
  have hbits : ((2 * fractionCount : ℕ) : ℚ) < 10 ^ 16 := by
    have hnat : 2 * fractionCount < 10 ^ 16 := by decide
    exact_mod_cast hnat
  -- Other values are farther away than the last place.
  have hfar (k : Nat) (hk : k ≠ m) : 10 ^ below.exponent < |value k - value m| := by
    have hpart := value_le_distance hk
    by_contra hle
    rw [not_lt] at hle
    have hmul : ((2 * fractionCount : ℕ) : ℚ) * |value k - value m| ≤
        (2 * fractionCount : ℕ) * 10 ^ below.exponent :=
      mul_le_mul_of_nonneg_left hle (Nat.cast_nonneg _)
    have hstrict := mul_lt_mul_of_pos_right hbits hplace
    rw [hpower] at hfirst
    linarith
  have hclose (e : Decimal) (he : 2 * |e.value - value m| ≤ 10 ^ below.exponent) :
      e.nearestIndex = m := by
    rw [Decimal.nearestIndex_eq_iff hm]
    exact isNearest_of_closer fun k hk => he.trans_lt (hfar k hk)
  rcases le_total (value m - below.value) (below.next.value - value m) with hnear | hnear
  · refine ⟨below, .inl rfl, hclose _ ?_⟩
    rw [abs_of_nonpos (sub_nonpos.mpr hlow)]
    linarith
  · refine ⟨below.next, .inr rfl, hclose _ ?_⟩
    rw [abs_of_pos (sub_pos.mpr hhigh)]
    linarith

/-- A decimal to which a magnitude is the nearest, with no fewer digits than needed. Of the decimals
with as many digits none is nearer to the magnitude. -/
structure IsShortest (m : Nat) (d : Decimal) : Prop where
  reads : IsNearest d.value m
  stripped : d.digits % 10 ≠ 0
  least : ∀ e : Decimal, IsNearest e.value m → digitCount d.digits ≤ digitCount e.digits
  closest : ∀ e : Decimal, IsNearest e.value m → digitCount e.digits ≤ digitCount d.digits →
    |d.value - value m| ≤ |e.value - value m|

omit hm hne in
/-- What is found first in a range, nothing before it being found. -/
theorem exists_of_findSome?_range {α : Type} {f : Nat → Option α} {a : α} {n : Nat}
    (h : (List.range n).findSome? f = some a) : ∃ k < n, f k = some a ∧ ∀ j < k, f j = none := by
  induction n with
  | zero => cases h
  | succ n ih =>
    rw [List.range_succ, List.findSome?_append, Option.or_eq_some_iff] at h
    rcases h with h | ⟨hnone, h⟩
    · obtain ⟨k, hk, ha, hbefore⟩ := ih h
      exact ⟨k, hk.trans n.lt_succ_self, ha, hbefore⟩
    · refine ⟨n, n.lt_succ_self, ?_, ?_⟩
      · simpa using h
      · intro j hj
        exact List.findSome?_eq_none_iff.mp hnone j (List.mem_range.mpr hj)

theorem candidate?_of_reads {d : Decimal} (hd : d.nearestIndex = m) (hcount : count ≠ 0)
    (hdigits : digitCount d.digits ≤ count) : candidate? tie m count ≠ none := by
  obtain ⟨e, he, hread, -⟩ := neighbour_of_reads hm hne hcount hd hdigits
  apply candidate?_ne_none
  rcases he with rfl | rfl
  · exact .inl hread
  · exact .inr hread

/-- A candidate is no farther from the value than other decimals of as many digits. -/
theorem candidate?_closest {c d : Decimal} (hc : candidate? tie m count = some c)
    (hd : d.nearestIndex = m) (hcount : count ≠ 0) (hdigits : digitCount d.digits ≤ count) :
    |c.value - value m| ≤ |d.value - value m| := by
  obtain ⟨-, -, hbelow, hnext⟩ := candidate?_spec hc
  obtain ⟨e, rfl | rfl, hread, hle⟩ := neighbour_of_reads hm hne hcount hd hdigits
  · exact (hbelow hread).trans hle
  · exact (hnext hread).trans hle

omit hm in
/-- A candidate fills its row of digits at most, or is the power of ten behind it. -/
theorem candidate?_digits_le {c : Decimal} (hc : candidate? tie m count = some c) :
    c.digits ≤ 10 ^ count := by
  obtain ⟨-, hhigh⟩ := magnitudeScale_bounds hne
  obtain ⟨hor, -, -⟩ := candidate?_spec hc
  have hlow := (floorAt_bounds m (magnitudeScale m - count)).1
  have hexponent : (floorAt m (magnitudeScale m - count)).exponent =
    magnitudeScale m - count := rfl
  generalize floorAt m (magnitudeScale m - count) = below at *
  have hlt : below.digits < 10 ^ count := by
    have hplace := ten_zpow_pos below.exponent
    have hsum : magnitudeScale m = count + below.exponent := by omega
    have hvalue := hlow.trans_lt hhigh
    rw [hsum, zpow_add₀ (by norm_num), zpow_natCast] at hvalue
    have hcast := lt_of_mul_lt_mul_right hvalue hplace.le
    exact_mod_cast hcast
  rcases hor with rfl | rfl
  · exact hlt.le
  · exact hlt

theorem isShortest_shortest (tie : Tie) : IsShortest m (shortest tie m) := by
  obtain ⟨c, hfound⟩ : ∃ c, (List.range 17).findSome? (fun n => candidate? tie m (n + 1)) =
      some c := by
    obtain ⟨e, he, hread⟩ := seventeen_digits hm hne
    rw [← Option.ne_none_iff_exists']
    intro hnone
    have hlast := List.findSome?_eq_none_iff.mp hnone 16 (by decide)
    refine candidate?_ne_none ?_ hlast
    rcases he with rfl | rfl
    · exact .inl hread
    · exact .inr hread
  have hshortest : shortest tie m = c.strip := by rw [shortest, hfound, Option.getD_some]
  obtain ⟨n, -, hc, hbefore⟩ := exists_of_findSome?_range hfound
  obtain ⟨-, hread, -⟩ := candidate?_spec hc
  have hdigits := candidate?_digits hne hc
  have hcount : digitCount c.strip.digits ≤ n + 1 :=
    Decimal.digitCount_strip_le hdigits (Nat.succ_ne_zero n) (candidate?_digits_le hne hc)
  rw [hshortest]
  constructor
  · rwa [Decimal.value_strip, ← Decimal.nearestIndex_eq_iff hm]
  · exact Decimal.strip_mod hdigits
  · intro e he
    rw [← Decimal.nearestIndex_eq_iff hm] at he
    by_contra hlt
    have hfew : digitCount e.digits < n + 1 := by omega
    have hpos : digitCount e.digits ≠ 0 := by
      intro hz
      have hzero := digitCount_le_iff.mp hz.le
      have hread : e.nearestIndex = 0 := Decimal.nearestIndex_zero (by omega)
      omega
    have hprevious := hbefore (digitCount e.digits - 1) (by omega)
    rw [Nat.sub_add_cancel (Nat.pos_of_ne_zero hpos)] at hprevious
    exact candidate?_of_reads hm hne he hpos le_rfl hprevious
  · intro e he hle
    rw [← Decimal.nearestIndex_eq_iff hm] at he
    rw [Decimal.value_strip]
    exact candidate?_closest hm hne hc he (Nat.succ_ne_zero n) (hle.trans hcount)

end Shortest

end SchemaGen.Numeric
