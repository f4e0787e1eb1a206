import SchemaGen.Numeric.Decimal

namespace SchemaGen.Numeric

/-- Characters are in the order of their code points. -/
theorem char_le_iff {a b : Char} : a ≤ b ↔ a.toNat ≤ b.toNat := UInt32.le_iff_toNat_le

theorem digitValue_digitChar {n : Nat} (h : n < 10) : digitValue n.digitChar = n := by
  have hall : ∀ m : Fin 10, digitValue (Nat.digitChar m.val) = m.val := by decide
  exact hall ⟨n, h⟩

theorem ofDigits_append_digit (radix : Nat) (digits : List Char) (c : Char) :
    ofDigits radix (digits ++ [c]) = ofDigits radix digits * radix + digitValue c := by
  simp [ofDigits]

theorem ofDigits_decimalDigits (n : Nat) : ofDigits 10 (decimalDigits n) = n := by
  induction n using Nat.strongRecOn with
  | ind n ih =>
    rw [decimalDigits, Nat.toDigits_eq_if (by decide)]
    split
    · next h => simp [ofDigits, digitValue_digitChar h]
    · next h =>
      rw [ofDigits_append_digit, ← decimalDigits, ih (n / 10) (by omega),
        digitValue_digitChar (Nat.mod_lt n (by decide))]
      omega

theorem decimalDigits_ne_nil (n : Nat) : decimalDigits n ≠ [] := by
  rw [decimalDigits, Nat.toDigits_eq_if (by decide)]
  split <;> simp

theorem mem_decimalDigits {n : Nat} {c : Char} (h : c ∈ decimalDigits n) : '0' ≤ c ∧ c ≤ '9' := by
  have hd := Nat.isDigit_of_mem_toDigits (by decide) (by decide) h
  simp only [Char.isDigit, Bool.and_eq_true, decide_eq_true_eq] at hd
  exact hd

end SchemaGen.Numeric
