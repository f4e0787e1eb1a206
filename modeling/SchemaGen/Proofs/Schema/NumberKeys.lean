import SchemaGen.Proofs.Numeric.ReadBack
import SchemaGen.Proofs.Schema.Equality

namespace SchemaGen

open Numeric Text

namespace Numeric.Binary64

/-- What is printed is read as the number that stands for all numbers that are the same key. -/
theorem ofText_text (n : Binary64) : ofText n.text = n.keyForm := by
  cases n with
  | nan => decide
  | infinity negative => cases negative <;> decide
  | finite negative m =>
    by_cases hzero : m.val = 0
    · have htext : (finite negative m).text = "0" := by simp [text, hzero]
      have hform : (finite negative m).keyForm = zero := by
        have hm : m = ⟨0, by decide⟩ := Fin.ext hzero
        simp [keyForm, zero, hm]
      rw [htext, hform]
      decide
    · have hform : (finite negative m).keyForm = finite negative m := by simp [keyForm, hzero]
      rw [hform, ofText_text_finite negative m hzero]

/-- Exactly numbers that are the same key have the same text. -/
theorem text_eq_iff (m n : Binary64) : m.text = n.text ↔ m.keyForm = n.keyForm := by
  constructor
  · intro h
    rw [← ofText_text, h, ofText_text]
  · intro h
    rw [← text_keyForm, h, text_keyForm]

end Numeric.Binary64

namespace Constant

variable {m n : Binary64}

theorem sameKey_number_iff : sameKey (number m) (number n) = true ↔ m.text = n.text := by
  rw [sameKey_iff, keyForm, keyForm, number.injEq, Binary64.text_eq_iff]

/-- The comparison of numbers by value is that by text. -/
theorem sameNumber_eq : sameNumber = fun m n => m.text == n.text := by
  funext m n
  rw [Bool.eq_iff_iff, beq_iff_eq, ← sameKey_number_iff]
  exact Iff.rfl

theorem sameKey_eq (a b : Constant) : sameKey a b = eqBy (fun m n => m.text == n.text) a b := by
  rw [← sameNumber_eq]
  rfl

theorem propertyKey_number (n : Binary64) :
    (number n).propertyKey = if n.isFinite then n.text else "[" ++ n.text ++ "]" := rfl

/-- A computed key of an object differs from the text of every number. -/
theorem text_ne_computed (n : Binary64) (cs : String) : n.text ≠ "[" ++ cs := by
  intro h
  have hbracket : '[' ∈ n.text.toList := by simp [h]
  exact absurd (n.chars_text '[' hbracket) (by decide)

/-- The key of an object shows which number it is as well as the text does. -/
theorem propertyKey_number_iff :
    (number m).propertyKey = (number n).propertyKey ↔ m.text = n.text := by
  constructor
  · intro h
    rw [propertyKey_number, propertyKey_number] at h
    split at h <;> split at h
    · exact h
    · rw [String.append_assoc] at h
      exact absurd h (text_ne_computed m _)
    · rw [String.append_assoc] at h
      exact absurd h.symm (text_ne_computed n _)
    · have hlist := congrArg String.toList h
      simpa [String.toList_inj] using hlist
  · intro h
    exact (printed_of_sameKey (sameKey_number_iff.mpr h)).2.2

/-- A number is read back from its text as the same key. So two numbers have one text, and are one
key of an object, exactly if they are the same key; and a map is filled alike whether the numbers in
its keys are compared by value or by text. -/
theorem number_text_round_trip :
    (∀ n : Binary64, sameKey (number (.ofText n.text)) (number n) = true) ∧
      (∀ m n : Binary64, (m.text = n.text ↔ sameKey (number m) (number n) = true) ∧
        ((number m).propertyKey = (number n).propertyKey ↔
          sameKey (number m) (number n) = true)) ∧
      ∀ entries : List (Constant × Constant),
        ofEntries entries = map (Table.ofEntriesBy (eqBy fun m n => m.text == n.text) entries) := by
  refine ⟨fun n => ?_, fun m n => ⟨sameKey_number_iff.symm, ?_⟩, fun entries => ?_⟩
  · rw [sameKey_number_iff, Binary64.ofText_text, Binary64.text_keyForm]
  · rw [propertyKey_number_iff, sameKey_number_iff]
  · have hsame : sameKey = eqBy fun m n => m.text == n.text := funext₂ sameKey_eq
    rw [ofEntries, hsame]

end Constant
end SchemaGen
