import SchemaGen.Proofs.Numeric.DecimalText
import SchemaGen.Proofs.Numeric.Integer
import SchemaGen.Proofs.Numeric.Positional

namespace SchemaGen.Numeric

theorem ofDigits_zeros (n : Nat) (cs : List Char) :
    ofDigits 10 (List.replicate n '0' ++ cs) = ofDigits 10 cs := by
  induction n with
  | zero => rfl
  | succ n ih =>
    rw [List.replicate_succ, List.cons_append, ← ih]
    rfl

theorem ofDigits_append_zeros (cs : List Char) (n : Nat) :
    ofDigits 10 (cs ++ List.replicate n '0') = ofDigits 10 cs * 10 ^ n := by
  induction n with
  | zero => simp
  | succ n ih =>
    have hzero : digitValue '0' = 0 := by decide
    rw [List.replicate_succ', ← List.append_assoc, ofDigits_append_digit, ih, hzero, Nat.pow_succ,
      Nat.mul_assoc, Nat.add_zero]

theorem DecimalText.digits {ws : List Char} (hw : IsDigits ws) :
    DecimalText ws ⟨ofDigits 10 ws, 0⟩ := by
  have h := DecimalText.whole hw .absent
  rwa [List.append_nil] at h

theorem DecimalText.point {ws fs : List Char} (hw : IsDigits ws)
    (hf : ∀ c ∈ fs, isDigit c = true) :
    DecimalText (ws ++ '.' :: fs) ⟨ofDigits 10 (ws ++ fs), -fs.length⟩ := by
  have h := DecimalText.pointed hw hf .absent
  rwa [List.append_nil, Int.zero_sub] at h

namespace Decimal

variable {d : Decimal}

/-- A decimal without an exponent stands for the same value, with more zeros at most. -/
theorem positional_text (h : d.digits ≠ 0) :
    ∃ r, DecimalText d.positional r ∧ r.value = d.value := by
  obtain ⟨hne, hd⟩ := isDigits_decimalDigits d.digits
  have hdigits := ofDigits_decimalDigits d.digits
  have hplace : d.place = (decimalDigits d.digits).length + d.exponent := rfl
  have hzeros (n : Nat) : ∀ c ∈ List.replicate n '0', isDigit c = true := by simp [isDigit]
  unfold positional
  dsimp only
  rw [leading_eq h, Int.sub_add_cancel]
  generalize d.place = place at hplace
  generalize decimalDigits d.digits = digits at *
  by_cases hsmall : place ≤ 0
  · have hfraction : ∀ c ∈ List.replicate (-place).toNat '0' ++ digits, isDigit c = true :=
      List.forall_mem_append.mpr ⟨hzeros _, hd⟩
    have htext := DecimalText.point ⟨by simp, hzeros 1⟩ hfraction
    have hvalue : ofDigits 10 (List.replicate 1 '0' ++
        (List.replicate (-place).toNat '0' ++ digits)) = d.digits := by
      rw [ofDigits_zeros, ofDigits_zeros, hdigits]
    have hlength : -((List.replicate (-place).toNat '0' ++ digits).length : Int) = d.exponent := by
      rw [List.length_append, List.length_replicate]
      omega
    rw [hvalue, hlength] at htext
    rw [if_pos hsmall]
    exact ⟨d, htext, rfl⟩
  · rw [if_neg hsmall]
    by_cases hwhole : digits.length ≤ place.toNat
    · rw [if_pos hwhole]
      have hdigit : ∀ c ∈ digits ++ List.replicate (place.toNat - digits.length) '0',
          isDigit c = true := List.forall_mem_append.mpr ⟨hd, hzeros _⟩
      refine ⟨_, .digits ⟨by simp [hne], hdigit⟩, ?_⟩
      have hexponent : d.exponent = (place.toNat - digits.length : Nat) := by omega
      rw [value, value, ofDigits_append_zeros, hdigits, hexponent, zpow_natCast, zpow_zero]
      push_cast
      ring
    · rw [if_neg hwhole]
      have hfront : IsDigits (digits.take place.toNat) := by
        refine ⟨?_, fun c hc => hd c (List.mem_of_mem_take hc)⟩
        simp [hne]
        omega
      have hback : ∀ c ∈ digits.drop place.toNat, isDigit c = true :=
        fun c hc => hd c (List.mem_of_mem_drop hc)
      have htext := DecimalText.point hfront hback
      have hlength : -((digits.drop place.toNat).length : Int) = d.exponent := by
        rw [List.length_drop]
        omega
      rw [List.take_append_drop, hdigits, hlength] at htext
      exact ⟨d, htext, rfl⟩

theorem signedExponent_text (d : Decimal) : ExponentText ('e' :: d.signedExponent) d.leading := by
  have hd := isDigits_decimalDigits d.leading.natAbs
  have hvalue := ofDigits_decimalDigits d.leading.natAbs
  unfold signedExponent
  by_cases hneg : d.leading < 0
  · have htext := ExponentText.present (.inl rfl) .minus hd
    have he : -(d.leading.natAbs : Int) = d.leading := by omega
    rw [if_pos rfl, hvalue, he] at htext
    rwa [if_pos hneg]
  · have htext := ExponentText.present (.inl rfl) .plus hd
    have he : (d.leading.natAbs : Int) = d.leading := by omega
    rw [if_neg Bool.false_ne_true, hvalue, he] at htext
    rwa [if_neg hneg]

/-- A decimal with an exponent stands for itself. -/
theorem exponential_text (h : d.digits ≠ 0) :
    DecimalText (d.mantissa ++ 'e' :: d.signedExponent) d := by
  obtain ⟨hne, hd⟩ := isDigits_decimalDigits d.digits
  have hdigits := ofDigits_decimalDigits d.digits
  have hexponent := d.signedExponent_text
  have hleading := leading_eq h
  rw [place] at hleading
  generalize hcs : decimalDigits d.digits = digits at *
  rw [mantissa, hcs]
  cases digits with
  | nil => exact absurd rfl hne
  | cons c rest =>
    cases rest with
    | nil =>
      have htext := DecimalText.whole ⟨by simp, hd⟩ hexponent
      have he : d.leading = d.exponent := by simpa using hleading
      rw [hdigits, he] at htext
      exact htext
    | cons x rest =>
      have hfirst : IsDigits [c] := ⟨by simp, fun y hy => hd y (by simp_all)⟩
      have hrest : ∀ y ∈ x :: rest, isDigit y = true := fun y hy => hd y (by simp_all)
      have htext := DecimalText.pointed hfirst hrest hexponent
      have he : d.leading - (x :: rest).length = d.exponent := by
        simp at hleading ⊢
        omega
      have hall : ofDigits 10 ([c] ++ x :: rest) = d.digits := hdigits
      rw [hall, he] at htext
      exact htext

end Decimal

theorem isBlank_of_isDecimalChar {c : Char} (h : isDecimalChar c = true) :
    Text.isBlank c = false := by
  have hrange : c = '.' ∨ c = 'e' ∨ c = 'E' ∨ c = '+' ∨ c = '-' ∨ 48 ≤ c.toNat ∧ c.toNat ≤ 57 := by
    simp only [isDecimalChar, isDigit, Bool.or_eq_true, Bool.and_eq_true, decide_eq_true_eq,
      char_le_iff, beq_iff_eq, Char.reduceToNat] at h
    tauto
  rcases hrange with rfl | rfl | rfl | rfl | rfl | hdigit
  · decide
  · decide
  · decide
  · decide
  · decide
  · simp [Text.isBlank]
    omega

section Text

variable {sign cs : List Char} {negative : Bool} {d : Decimal}

variable (hs : IsSign sign negative) (h : DecimalText cs d)
include hs h

theorem readSigned_of_text : readSigned (sign ++ cs) = d.toBinary64 negative := by
  have hhead : ∀ c ∈ cs.head?, c ≠ '+' ∧ c ≠ '-' := by
    obtain ⟨c, rest, rfl, hc⟩ := h.head
    intro x hx
    obtain rfl : c = x := Option.some.inj hx
    rcases hc with hc | rfl
    · exact ne_sign_of_isDigit hc
    · decide
  have hinfinity : cs ≠ "Infinity".toList := by
    intro hcs
    have hletter := h.chars 'I' (by simp [hcs])
    exact absurd hletter (by decide)
  rw [readSigned, takeSign_eq hs hhead]
  simp only [if_neg hinfinity, readDecimal_of_text h]

/-- Neither blanks nor the mark of a radix stand in the way of a decimal. -/
theorem ofText_of_text {text : String} (ht : text.toList = sign ++ cs) :
    Binary64.ofText text = d.toBinary64 negative := by
  have hchars : ∀ c ∈ text.toList, isDecimalChar c = true := by
    rw [ht]
    exact List.forall_mem_append.mpr ⟨hs.chars, h.chars⟩
  have hblank : ∀ c ∈ text.toList, Text.isBlank c = false :=
    fun c hc => isBlank_of_isDecimalChar (hchars c hc)
  have hne : text.toList ≠ [] := by
    obtain ⟨c, rest, rfl, -⟩ := h.head
    simp [ht]
  have hmark : ∀ c rest, text.toList = '0' :: c :: rest → c ∉ ['x', 'X', 'o', 'O', 'b', 'B'] := by
    intro c rest hcs hc
    have hdecimal := hchars c (by simp [hcs])
    have hnone : ∀ c ∈ ['x', 'X', 'o', 'O', 'b', 'B'], isDecimalChar c = false := by
      simp [isDecimalChar, isDigit]
    rw [hnone c hc] at hdecimal
    cases hdecimal
  rw [ofText_eq_readSigned hblank hne hmark, ht, readSigned_of_text hs h]

end Text

/-- The body of a printed number is the text of a decimal of the same value. -/
theorem Decimal.body_text {d : Decimal} (h : d.digits ≠ 0) (positional : Bool) :
    ∃ r, r.value = d.value ∧ DecimalText
      (if positional then d.positional else d.mantissa ++ 'e' :: d.signedExponent) r := by
  cases positional with
  | true =>
    obtain ⟨r, htext, hvalue⟩ := positional_text h
    exact ⟨r, hvalue, htext⟩
  | false => exact ⟨d, rfl, exponential_text h⟩

namespace Binary64

/-- A finite number other than zero is read back from its text. -/
theorem ofText_text_finite (negative : Bool) (m : Fin finiteCount) (h : m.val ≠ 0) :
    ofText (finite negative m).text = finite negative m := by
  have hshortest := (isShortest_shortest m.isLt h .up).reads
  obtain ⟨r, hvalue, hbody⟩ := Decimal.body_text (shortest_digits .up h) (isPositional m)
  have hindex : r.nearestIndex = m := by
    rw [r.nearestIndex_eq_iff m.isLt, hvalue]
    exact hshortest
  have hsign : IsSign (if negative then ['-'] else []) negative := by
    cases negative
    · exact .absent
    · exact .minus
  have htext := text_signed negative m h
  rw [ofText_of_text hsign hbody htext, Decimal.toBinary64, hindex, ofIndex, dif_pos m.isLt]

end Binary64
end SchemaGen.Numeric
