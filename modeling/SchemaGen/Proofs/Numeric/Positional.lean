import SchemaGen.Proofs.Numeric.Shortest

namespace SchemaGen.Numeric

/-- The text of the number `0.d₁ … dₖ * 10 ^ place` by its digits: without an exponent if the first
digit stands at most 21 places before the point or 6 places behind it. -/
def standardText (digits : List Char) (place : Int) : List Char :=
  if digits.length ≤ place ∧ place ≤ 21 then
    digits ++ List.replicate (place - digits.length).toNat '0'
  else if 0 < place ∧ place ≤ 21 then
    digits.take place.toNat ++ '.' :: digits.drop place.toNat
  else if -6 < place ∧ place ≤ 0 then
    '0' :: '.' :: (List.replicate (-place).toNat '0' ++ digits)
  else
    let sign := if place - 1 < 0 then '-' else '+'
    let power := 'e' :: sign :: decimalDigits (place - 1).natAbs
    if digits.length = 1 then digits ++ power
    else digits.take 1 ++ '.' :: (digits.drop 1 ++ power)

namespace Decimal

variable {d : Decimal}

/-- The place of the first digit, counted from the point. -/
def place (d : Decimal) : Int := (decimalDigits d.digits).length + d.exponent

theorem place_eq (h : d.digits ≠ 0) : d.place = digitCount d.digits + d.exponent := by
  rw [place, digitCount, if_neg h]

theorem leading_eq (h : d.digits ≠ 0) : d.leading = d.place - 1 := by
  rw [leading, place_eq h]

theorem value_lt_zpow_iff (h : d.digits ≠ 0) (p : Int) : d.value < 10 ^ p ↔ d.place ≤ p := by
  have hlow := le_value h
  have hhigh := d.value_lt
  rw [← place_eq h] at hlow hhigh
  constructor
  · intro hlt
    have hpow := (zpow_lt_zpow_iff_right₀ (by norm_num)).mp (hlow.trans_lt hlt)
    omega
  · intro hle
    exact hhigh.trans_le (zpow_le_zpow_right₀ (by norm_num) hle)

theorem positional_eq (h : d.digits ≠ 0) (hlow : -6 < d.place) (hhigh : d.place ≤ 21) :
    d.positional = standardText (decimalDigits d.digits) d.place := by
  unfold positional standardText
  dsimp only
  rw [leading_eq h, Int.sub_add_cancel]
  by_cases hpoint : d.place ≤ 0
  · have hlength : 0 < (decimalDigits d.digits).length := Nat.length_toDigits_pos
    rw [if_pos hpoint, if_neg (by omega), if_neg (by omega), if_pos ⟨hlow, hpoint⟩]
  · rw [if_neg hpoint]
    by_cases hwhole : (decimalDigits d.digits).length ≤ d.place
    · have hzeros : (d.place - (decimalDigits d.digits).length).toNat =
          d.place.toNat - (decimalDigits d.digits).length := by omega
      rw [if_pos (by omega), if_pos ⟨hwhole, hhigh⟩, hzeros]
    · rw [if_neg (by omega), if_neg (by omega), if_pos (by omega)]

theorem mantissa_eq (d : Decimal) (cs : List Char) :
    d.mantissa ++ cs =
      if (decimalDigits d.digits).length = 1 then decimalDigits d.digits ++ cs
      else (decimalDigits d.digits).take 1 ++ '.' :: ((decimalDigits d.digits).drop 1 ++ cs) := by
  unfold mantissa
  cases hcs : decimalDigits d.digits with
  | nil => exact absurd hcs (decimalDigits_ne_nil _)
  | cons c rest => cases rest <;> simp

theorem exponential_eq (h : d.digits ≠ 0) (hplace : ¬ (-6 < d.place ∧ d.place ≤ 21)) :
    d.mantissa ++ 'e' :: d.signedExponent =
      standardText (decimalDigits d.digits) d.place := by
  have hlength : 0 < (decimalDigits d.digits).length := Nat.length_toDigits_pos
  unfold standardText signedExponent
  have hwhole : ¬ ((decimalDigits d.digits).length ≤ d.place ∧ d.place ≤ 21) := by omega
  have hmixed : ¬ (0 < d.place ∧ d.place ≤ 21) := by omega
  have hsmall : ¬ (-6 < d.place ∧ d.place ≤ 0) := by omega
  rw [mantissa_eq, leading_eq h, if_neg hwhole, if_neg hmixed, if_neg hsmall]

end Decimal

theorem shortest_millionth : shortest .up (nearestIndex 1 (tenPow 6)) = ⟨1, -6⟩ := by
  decide +kernel

theorem shortest_sextillion : shortest .up (nearestIndex (tenPow 21) 1) = ⟨1, 21⟩ := by
  decide +kernel

section Thresholds

variable {m : Nat} (hm : m < finiteCount) (hne : m ≠ 0)
include hm hne

/-- The shortest digits of a number are below a power of ten that is the shortest decimal of its
nearest number exactly if the number is below that one. -/
theorem place_le_iff {num den : Nat} (hd : 0 < den) {p : Int} (hvalue : (num : ℚ) / den = 10 ^ p)
    (hself : shortest .up (nearestIndex num den) = ⟨1, p⟩) :
    (shortest .up m).place ≤ p ↔ m < nearestIndex num den := by
  have hread := (isShortest_shortest hm hne .up).reads
  have hpower := nearestIndex_isNearest num hd
  rw [hvalue] at hpower
  rw [← Decimal.value_lt_zpow_iff (shortest_digits .up hne)]
  constructor
  · intro hlt
    apply Nat.lt_of_le_of_ne (hread.mono hpower hlt.le)
    intro heq
    rw [heq, hself, Decimal.value, Nat.cast_one, one_mul] at hlt
    exact lt_irrefl _ hlt
  · intro hlt
    by_contra hge
    have hle := hpower.mono hread (not_lt.mp hge)
    omega

theorem isPositional_iff :
    isPositional m = true ↔ -6 < (shortest .up m).place ∧ (shortest .up m).place ≤ 21 := by
  have hsmall : ((1 : ℕ) : ℚ) / (tenPow 6 : ℕ) = 10 ^ (-6 : Int) := by
    simp [tenPow, zpow_neg]
    norm_cast
  have hlarge : ((tenPow 21 : ℕ) : ℚ) / (1 : ℕ) = 10 ^ (21 : Int) := by
    simp [tenPow]
    norm_cast
  have hpos : 0 < tenPow 6 := Nat.pow_pos (by decide)
  have hlow := place_le_iff hm hne hpos hsmall shortest_millionth
  have hhigh := place_le_iff hm hne Nat.one_pos hlarge shortest_sextillion
  rw [isPositional, Bool.and_eq_true, decide_eq_true_eq, decide_eq_true_eq, ← hhigh, ← not_lt,
    ← hlow, not_le]

end Thresholds

/-- What is printed of a magnitude is its standard text. -/
theorem body_standard {m : Nat} (hm : m < finiteCount) (h : m ≠ 0) :
    (if isPositional m then (shortest .up m).positional
      else (shortest .up m).mantissa ++ 'e' :: (shortest .up m).signedExponent) =
      standardText (decimalDigits (shortest .up m).digits) (shortest .up m).place := by
  have hdigits := shortest_digits .up h
  have hiff := isPositional_iff hm h
  by_cases hp : isPositional m = true
  · obtain ⟨hlow, hhigh⟩ := hiff.mp hp
    rw [if_pos hp, Decimal.positional_eq hdigits hlow hhigh]
  · rw [if_neg hp, Decimal.exponential_eq hdigits fun hplace => hp (hiff.mpr hplace)]

theorem text_signed (negative : Bool) (m : Fin finiteCount) (h : m.val ≠ 0) :
    (Binary64.finite negative m).text.toList =
      (if negative then ['-'] else []) ++
        if isPositional m then (shortest .up m).positional
        else (shortest .up m).mantissa ++ 'e' :: (shortest .up m).signedExponent := by
  unfold Binary64.text
  dsimp only
  rw [if_neg h, String.toList_ofList]
  cases negative <;> simp

/-- The text of a finite number other than zero is the standard text of its shortest digits, which
start with a digit other than zero, with a minus if it is below zero. -/
theorem text_standard (negative : Bool) (m : Fin finiteCount) (h : m.val ≠ 0) :
    IsShortest m (shortest .up m) ∧
      (decimalDigits (shortest .up m).digits).head? ≠ some '0' ∧
      (Binary64.finite negative m).text.toList =
        (if negative then ['-'] else []) ++
          standardText (decimalDigits (shortest .up m).digits) (shortest .up m).place := by
  refine ⟨isShortest_shortest m.isLt h .up, decimalDigits_head (shortest_digits .up h), ?_⟩
  rw [text_signed negative m h, body_standard m.isLt h]

/-- The largest number below 10^21 has no exponent. -/
theorem text_standard_below_sextillion :
    nearestIndex (tenPow 21) 1 - 1 ≠ 0 ∧
      ∃ h : nearestIndex (tenPow 21) 1 - 1 < finiteCount,
        (Binary64.finite true ⟨_, h⟩).text.toList = "-999999999999999900000".toList := by
  have hne : nearestIndex (tenPow 21) 1 - 1 ≠ 0 := by decide +kernel
  have hlt : nearestIndex (tenPow 21) 1 - 1 < finiteCount := by decide +kernel
  have hshortest : shortest .up (nearestIndex (tenPow 21) 1 - 1) = ⟨9999999999999999, 5⟩ := by
    decide +kernel
  obtain ⟨-, -, htext⟩ := text_standard true ⟨_, hlt⟩ hne
  dsimp only at htext
  rw [hshortest] at htext
  exact ⟨hne, hlt, htext.trans (by decide)⟩

end SchemaGen.Numeric
