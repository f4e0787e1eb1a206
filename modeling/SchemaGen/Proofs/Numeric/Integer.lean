import Mathlib.Data.List.TakeWhile
import Mathlib.Data.Nat.Digits.Defs
import SchemaGen.Numeric.Literal
import SchemaGen.Proofs.Numeric.Exact
import SchemaGen.Proofs.Numeric.Reading

namespace SchemaGen.Numeric

open Binary64

section Radix

variable {radix : Nat}

/-- Digits only add to what stands before them. -/
theorem le_foldl_digits (hr : 1 ≤ radix) (n : Nat) (digits : List Char) :
    n ≤ digits.foldl (fun n c => n * radix + digitValue c) n := by
  induction digits generalizing n with
  | nil => exact Nat.le_refl n
  | cons c digits ih =>
    have hstep : n ≤ n * radix + digitValue c :=
      Nat.le_add_right_of_le (Nat.le_mul_of_pos_right n hr)
    exact Nat.le_trans hstep (ih _)

theorem step_represents (hb : radix ≤ exactBound) {acc : Binary64} {n d : Nat}
    (h : acc.Represents n) (hd : d ≤ exactBound) (hn : n * radix + d ≤ exactBound) :
    ((acc.mul (.ofNat radix)).add (.ofNat d)).Represents ((n * radix + d : Nat) : Int) := by
  have hmul := h.mul (ofNat_represents hb) (by rw [Int.natAbs_mul]; exact Nat.le_of_add_right_le hn)
  have hadd := hmul.add (ofNat_represents hd) (by exact_mod_cast hn)
  exact_mod_cast hadd

variable (hr : 1 ≤ radix) (hb : radix ≤ exactBound)
include hr hb

/-- No prefix exceeds the bound that the whole does not, so no step rounds. -/
theorem foldl_represents {digits : List Char} (hd : ∀ c ∈ digits, hasDigit radix c = true)
    {acc : Binary64} {n : Nat} (h : acc.Represents n)
    (hn : digits.foldl (fun n c => n * radix + digitValue c) n ≤ exactBound) :
    (digits.foldl (fun acc c => (acc.mul (.ofNat radix)).add (.ofNat (digitValue c)))
      acc).Represents (digits.foldl (fun n c => n * radix + digitValue c) n : Nat) := by
  induction digits generalizing acc n with
  | nil => exact h
  | cons c digits ih =>
    have hc := hd c List.mem_cons_self
    have hlt : digitValue c < radix := by simpa using (Bool.and_eq_true_iff.mp hc).2
    have hstep := Nat.le_trans (le_foldl_digits hr _ digits) hn
    exact ih (fun d hm => hd d (List.mem_cons_of_mem c hm))
      (step_represents hb h (by omega) hstep) hn

theorem readRadix_represents {digits : List Char} (hne : digits ≠ [])
    (hd : ∀ c ∈ digits, hasDigit radix c = true) (h : ofDigits radix digits ≤ exactBound) :
    (readRadix radix digits).Represents (ofDigits radix digits) := by
  have hall : (!digits.isEmpty && digits.all (hasDigit radix)) = true := by
    simpa [hne] using hd
  rw [readRadix, if_pos hall]
  exact foldl_represents hr hb hd zero_represents h

end Radix

theorem readDecimal_of_digits {digits : List Char} (h : IsDigits digits) :
    readDecimal digits = some ⟨ofDigits 10 digits, 0⟩ := by
  obtain ⟨hne, hd⟩ := h
  have htake : digits.takeWhile isDigit = digits := List.takeWhile_eq_self_iff.mpr hd
  have hdrop : digits.dropWhile isDigit = [] := List.dropWhile_eq_nil_iff.mpr hd
  simp [readDecimal, htake, hdrop, hne, readExponent]

theorem digitCount_le {n : Nat} (h : n ≤ exactBound) : digitCount n ≤ 16 := by
  unfold digitCount
  split
  · exact Nat.zero_le 16
  · exact Nat.toDigits_length 10 n 16 (by decide) (Nat.lt_of_le_of_lt h (by decide))

theorem toBinary64_represents (negative : Bool) {n : Nat} (h : n ≤ exactBound) :
    (Decimal.toBinary64 negative ⟨n, 0⟩).Represents (signed negative n) := by
  by_cases hz : n = 0
  · subst hz
    have hzero : units 0 = 0 * unitsPerOne := (Nat.zero_mul unitsPerOne).symm
    exact ofIndex_represents negative (by decide) hzero
  · have hcount := digitCount_le h
    have hindex : Decimal.nearestIndex ⟨n, 0⟩ = nearestIndex (n * tenPow 0) (tenPow 0) := by
      rw [Decimal.nearestIndex]
      simp only [hz, false_or]
      rw [if_neg (by omega), if_neg (by omega)]
      rfl
    rw [Decimal.toBinary64, hindex]
    exact ofRatio_represents negative Nat.one_pos h rfl

theorem trim_of_not_blank {cs : List Char} (h : ∀ c ∈ cs, Text.isBlank c = false) :
    Text.trim cs = cs := by
  have hfront {ds : List Char} (hd : ∀ c ∈ ds, Text.isBlank c = false) :
      ds.dropWhile Text.isBlank = ds := by
    cases ds with
    | nil => rfl
    | cons c ds => rw [List.dropWhile_cons, if_neg (by simp [hd c List.mem_cons_self])]
  rw [Text.trim, hfront h, hfront fun c hc => h c (List.mem_reverse.mp hc), List.reverse_reverse]

/-- A text without the mark of a radix is read with its sign. -/
theorem ofText_eq_readSigned {text : String} (hb : ∀ c ∈ text.toList, Text.isBlank c = false)
    (hne : text.toList ≠ [])
    (h : ∀ c rest, text.toList = '0' :: c :: rest → c ∉ ['x', 'X', 'o', 'O', 'b', 'B']) :
    ofText text = readSigned text.toList := by
  rw [ofText_eq_readFront, trim_of_not_blank hb]
  unfold readFront
  split
  case h_1 he => exact absurd he hne
  case h_8 => rfl
  all_goals
    next he => exact absurd (by decide) (h _ _ he)

theorem readSigned_of_digits {cs digits : List Char} {negative : Bool}
    (hs : takeSign cs = (negative, digits)) (h : IsDigits digits) :
    readSigned cs = Decimal.toBinary64 negative ⟨ofDigits 10 digits, 0⟩ := by
  have hinfinity : digits ≠ "Infinity".toList := by
    rintro rfl
    exact absurd (h.2 'I' (by decide)) (by decide)
  rw [readSigned, hs]
  simp only [if_neg hinfinity, readDecimal_of_digits h]

/-- After a sign, the mark of a radix is no digit. -/
theorem readSigned_of_mark {cs digits : List Char} {negative : Bool}
    (hs : takeSign cs = (negative, '0' :: 'x' :: digits)) : readSigned cs = .nan := by
  have hinfinity : '0' :: 'x' :: digits ≠ "Infinity".toList := by
    intro he
    injection he with hc
    exact absurd hc (by decide)
  have hnone : readDecimal ('0' :: 'x' :: digits) = none := by
    simp [readDecimal, isDigit, readExponent]
  rw [readSigned, hs]
  simp only [if_neg hinfinity, hnone]

end SchemaGen.Numeric
