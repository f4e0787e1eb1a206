import SchemaGen.Proofs.Idl.WholeNumber
import SchemaGen.Proofs.Numeric.DecimalText
import SchemaGen.Proofs.Numeric.LowTie

namespace SchemaGen.Numeric

open Binary64 Idl

/-- A further digit, which is lost once 53 bits are full. -/
def keepDigit (radix n : Nat) (c : Char) : Nat :=
  n * radix + if n < exactBound then digitValue c else 0

/-- The number with zeros for the digits that are lost. -/
def keptDigits (radix : Nat) (digits : List Char) : Nat := digits.foldl (keepDigit radix) 0

theorem foldl_ofNat {k : Nat} (hk : k ≤ 52) {digits : List Char}
    (hd : ∀ c ∈ digits, digitValue c < twoPow k) (n : Nat) :
    digits.foldl (fun acc c => (acc.mul (ofNat (twoPow k))).add (ofNat (digitValue c))) (ofNat n) =
      ofNat (digits.foldl (keepDigit (twoPow k)) n) := by
  induction digits generalizing n with
  | nil => rw [List.foldl_nil, List.foldl_nil]
  | cons c digits ih =>
    rw [List.forall_mem_cons] at hd
    rw [List.foldl_cons, List.foldl_cons, step_ofNat n hk hd.1, ih hd.2, keepDigit]

theorem readRadix_eq {k : Nat} (hk : k ≤ 52) {digits : List Char} (hne : digits ≠ [])
    (hd : ∀ c ∈ digits, hasDigit (twoPow k) c = true) :
    readRadix (twoPow k) digits = ofNat (keptDigits (twoPow k) digits) := by
  have hall : (!digits.isEmpty && digits.all (hasDigit (twoPow k))) = true := by
    simpa [hne] using hd
  have hlt : ∀ c ∈ digits, digitValue c < twoPow k := by
    intro c hc
    simpa using (Bool.and_eq_true_iff.mp (hd c hc)).2
  rw [readRadix, if_pos hall, ← ofNat_zero, foldl_ofNat hk hlt, keptDigits]

theorem ofDigits_append (radix : Nat) (head tail : List Char) :
    ofDigits radix (head ++ tail) =
      ofDigits radix head * radix ^ tail.length + ofDigits radix tail := by
  simp only [ofDigits_eq_placeValue, placeValue]
  rw [List.map_append, List.reverse_append, Nat.ofDigits_append, List.length_reverse,
    List.length_map, Nat.add_comm, Nat.mul_comm]

theorem twoPow_pow (k n : Nat) : twoPow k ^ n = twoPow (k * n) := (Nat.pow_mul 2 k n).symm

theorem ofDigits_lt_twoPow {k : Nat} (hk : 1 ≤ k) {digits : List Char}
    (hd : ∀ c ∈ digits, digitValue c < twoPow k) :
    ofDigits (twoPow k) digits < twoPow (k * digits.length) := by
  have hone : 1 < twoPow k := Nat.one_lt_two_pow (by omega)
  have hlt := Nat.ofDigits_lt_base_pow_length (l := (digits.map digitValue).reverse) hone (by simpa)
  rw [List.length_reverse, List.length_map, twoPow_pow] at hlt
  rwa [ofDigits_eq_placeValue, placeValue]

theorem ofDigits_take_le {radix : Nat} (hr : 1 ≤ radix) (digits : List Char) (n : Nat) :
    ofDigits radix (digits.take n) ≤ ofDigits radix digits := by
  have happend := ofDigits_append radix (digits.take n) (digits.drop n)
  have hmul := Nat.le_mul_of_pos_right (ofDigits radix (digits.take n))
    (Nat.pow_pos (n := (digits.drop n).length) hr)
  rw [List.take_append_drop] at happend
  omega

theorem keptDigits_append_digit (radix : Nat) (digits : List Char) (c : Char) :
    keptDigits radix (digits ++ [c]) = keepDigit radix (keptDigits radix digits) c := by
  rw [keptDigits, List.foldl_append]
  rfl

/-- All digits are kept, or those that fill 53 bits for the first time. -/
theorem keptDigits_cases {radix : Nat} (hr : 1 ≤ radix) (digits : List Char) :
    (ofDigits radix digits < exactBound ∧ keptDigits radix digits = ofDigits radix digits) ∨
      ∃ head tail, digits = head ++ tail ∧ exactBound ≤ ofDigits radix head ∧
        (∀ n < head.length, ofDigits radix (head.take n) < exactBound) ∧
        keptDigits radix digits = ofDigits radix head * radix ^ tail.length := by
  induction digits using List.reverseRecOn with
  | nil => exact .inl ⟨twoPow_pos 53, rfl⟩
  | append_singleton digits c ih =>
    rw [keptDigits_append_digit, keepDigit]
    rcases ih with ⟨hlt, hkept⟩ | ⟨head, tail, rfl, hle, hleast, hkept⟩
    · rw [hkept, if_pos hlt, ← ofDigits_append_digit]
      by_cases hnext : ofDigits radix (digits ++ [c]) < exactBound
      · exact .inl ⟨hnext, rfl⟩
      · right
        refine ⟨digits ++ [c], [], (List.append_nil _).symm, Nat.not_lt.mp hnext, ?_, by simp⟩
        intro n hn
        have hlength : n ≤ digits.length := by simpa [Nat.lt_succ_iff] using hn
        rw [List.take_append_of_le_length hlength]
        exact (ofDigits_take_le hr digits n).trans_lt hlt
    · have hfull : ¬ ofDigits radix head * radix ^ tail.length < exactBound := by
        have hmul :=
          Nat.le_mul_of_pos_right (ofDigits radix head) (Nat.pow_pos (n := tail.length) hr)
        omega
      refine .inr ⟨head, tail ++ [c], by rw [List.append_assoc], hle, hleast, ?_⟩
      rw [hkept, if_neg hfull, Nat.add_zero, List.length_append, List.length_singleton,
        Nat.pow_succ, Nat.mul_assoc]

/-- A mark, the radix that it stands for and the digits of the radix. -/
inductive IsRadix : Char → Nat → List Char → Prop where
  | hexadecimal {mark : Char} (h : mark = 'x' ∨ mark = 'X') :
      IsRadix mark 16 "0123456789abcdefABCDEF".toList
  | octal {mark : Char} (h : mark = 'o' ∨ mark = 'O') : IsRadix mark 8 "01234567".toList
  | binary {mark : Char} (h : mark = 'b' ∨ mark = 'B') : IsRadix mark 2 "01".toList

/-- A zero, a mark and digits of its radix, at least one. -/
inductive RadixText : List Char → Nat → List Char → Prop where
  | mk {mark : Char} {radix : Nat} {alphabet digits : List Char} (hm : IsRadix mark radix alphabet)
      (hne : digits ≠ []) (hd : ∀ c ∈ digits, c ∈ alphabet) :
      RadixText ('0' :: mark :: digits) radix digits

/-- Some first digits are in the middle between two numbers, of which the lower one is even, and
later digits are not all zero. -/
def LosesTie (radix : Nat) (digits : List Char) : Prop :=
  ∃ n < digits.length, IsLowTie (ofDigits radix (digits.take n)) ∧ ∃ c ∈ digits.drop n, c ≠ '0'

instance (radix : Nat) (digits : List Char) : Decidable (LosesTie radix digits) :=
  inferInstanceAs (Decidable (∃ n < digits.length, _ ∧ ∃ c ∈ digits.drop n, _))

/-- The number nearest to an integer, where of two equally near ones the even one counts, and what
is nearer to numbers past the largest one is infinite. -/
def IsRounded (n : Nat) (x : Binary64) : Prop := ∃ m, IsNearest n m ∧ x = ofIndex false m

theorem isRounded_iff {n : Nat} {x : Binary64} : IsRounded n x ↔ x = ofNat n := by
  have hnearest : IsNearest n (nearestIndex n 1) := by
    have h := nearestIndex_isNearest n Nat.one_pos
    rwa [Nat.cast_one, div_one] at h
  constructor
  · rintro ⟨m, hm, rfl⟩
    rw [ofNat, ofRatio, hm.unique hnearest]
  · intro h
    exact ⟨_, hnearest, h⟩

section Radix

variable {mark : Char} {radix : Nat} {alphabet : List Char} (hm : IsRadix mark radix alphabet)
include hm

theorem IsRadix.exists_twoPow : ∃ k ≤ 4, 1 ≤ k ∧ radix = twoPow k := by
  cases hm with
  | hexadecimal => exact ⟨4, by decide, by decide, by decide⟩
  | octal => exact ⟨3, by decide, by decide, by decide⟩
  | binary => exact ⟨1, by decide, by decide, by decide⟩

/-- The digits are those that the reader takes. -/
theorem IsRadix.hasDigit_iff (c : Char) : hasDigit radix c = true ↔ c ∈ alphabet := by
  by_cases hc : c.toNat < 128
  · have hall : ∀ n < 128, (hasDigit 16 (Char.ofNat n) = true ↔
        Char.ofNat n ∈ "0123456789abcdefABCDEF".toList) ∧
        (hasDigit 8 (Char.ofNat n) = true ↔ Char.ofNat n ∈ "01234567".toList) ∧
        (hasDigit 2 (Char.ofNat n) = true ↔ Char.ofNat n ∈ "01".toList) := by decide +kernel
    have h := hall c.toNat hc
    rw [Char.ofNat_toNat] at h
    cases hm with
    | hexadecimal => exact h.1
    | octal => exact h.2.1
    | binary => exact h.2.2
  · have hnot : hasDigit radix c = false := by
      simp [hasDigit, isDigit, char_le_iff]
      omega
    have hascii : ∀ c ∈ alphabet, c.toNat < 128 := by
      cases hm <;> simp
    simp only [hnot, Bool.false_eq_true, false_iff]
    exact fun hmem => hc (hascii c hmem)

theorem IsRadix.eq_zero_of_digitValue {c : Char} (hc : c ∈ alphabet) :
    digitValue c = 0 ↔ c = '0' := by
  have hall : ∀ c ∈ alphabet, digitValue c = 0 ↔ c = '0' := by
    cases hm <;> simp [digitValue]
  exact hall c hc

theorem IsRadix.digitValue_lt {c : Char} (hc : c ∈ alphabet) : digitValue c < radix := by
  have hdigit := (hm.hasDigit_iff c).mpr hc
  simpa using (Bool.and_eq_true_iff.mp hdigit).2

theorem ofText_of_mark {text : String} {digits : List Char}
    (ht : Text.trim text.toList = '0' :: mark :: digits) :
    ofText text = readRadix radix digits := by
  rw [ofText_eq_readFront, ht]
  cases hm with
  | hexadecimal h | octal h | binary h => rcases h with rfl | rfl <;> rfl

variable {digits : List Char} (hd : ∀ c ∈ digits, c ∈ alphabet)
include hd

/-- Digits are read as the number nearest to what is kept of them. -/
theorem readRadix_of_digits (hne : digits ≠ []) :
    readRadix radix digits = ofNat (keptDigits radix digits) := by
  have hall : ∀ c ∈ digits, hasDigit radix c = true :=
    fun c hc => (hm.hasDigit_iff c).mpr (hd c hc)
  obtain ⟨k, hk, -, rfl⟩ := hm.exists_twoPow
  exact readRadix_eq (by omega) hne hall

theorem ofDigits_ne_zero_iff : ofDigits radix digits ≠ 0 ↔ ∃ c ∈ digits, c ≠ '0' := by
  have hpos : radix ≠ 0 := by
    cases hm <;> decide
  induction digits using List.reverseRecOn with
  | nil => simp [ofDigits]
  | append_singleton digits c ih =>
    rw [List.forall_mem_append] at hd
    have hc := hm.eq_zero_of_digitValue (hd.2 c List.mem_cons_self)
    have hfront : ¬ ofDigits radix digits = 0 ↔ ∃ c ∈ digits, c ≠ '0' := ih hd.1
    rw [ofDigits_append_digit, ne_eq, Nat.add_eq_zero_iff, Nat.mul_eq_zero, or_iff_left hpos, hc,
      not_and_or, hfront]
    simp [or_and_right, exists_or]

/-- Digits are lost behind the middle between two numbers of 53 bits if some are not zero. -/
theorem losesTie_append_iff {head tail : List Char} (hdigits : digits = head ++ tail)
    (hle : exactBound ≤ ofDigits radix head)
    (hleast : ∀ n < head.length, ofDigits radix (head.take n) < exactBound) :
    LosesTie radix digits ↔ IsLowTie (ofDigits radix head) ∧ ofDigits radix tail ≠ 0 := by
  subst hdigits
  rw [List.forall_mem_append] at hd
  rw [ofDigits_ne_zero_iff hm hd.2]
  obtain ⟨k, -, hk, rfl⟩ := hm.exists_twoPow
  constructor
  · rintro ⟨n, -, htie, c, hc, hne⟩
    have hlength : head.length ≤ n := by
      by_contra hlt
      have hshort := hleast n (Nat.not_le.mp hlt)
      rw [List.take_append_of_le_length (by omega)] at htie
      exact absurd htie.le (Nat.not_le.mpr hshort)
    obtain ⟨i, rfl⟩ := Nat.exists_eq_add_of_le hlength
    have htail : ∀ c ∈ tail.take i, digitValue c < twoPow k :=
      fun c hc => hm.digitValue_lt (hd.2 c (List.mem_of_mem_take hc))
    have hrest := ofDigits_lt_twoPow hk htail
    rw [List.drop_length_add_append] at hc
    rw [List.take_length_add_append, ofDigits_append, twoPow_pow] at htie
    exact ⟨htie.of_append hle hrest, c, List.mem_of_mem_drop hc, hne⟩
  · rintro ⟨htie, hne⟩
    obtain ⟨c, hc, -⟩ := id hne
    refine ⟨head.length, ?_, ?_, ?_⟩
    · rw [List.length_append]
      have hpos := List.length_pos_of_mem hc
      omega
    · rwa [List.take_left]
    · rwa [List.drop_left]

/-- What is lost of the digits makes a difference only if it is behind such a middle. -/
theorem ofNat_keptDigits_iff :
    ofNat (keptDigits radix digits) = ofNat (ofDigits radix digits) ↔
      ¬ (ofDigits radix digits < twoPow 1024 ∧ LosesTie radix digits) := by
  obtain ⟨k, -, hk, hradix⟩ := hm.exists_twoPow
  have hpos : 1 ≤ radix := by
    rw [hradix]
    exact twoPow_pos k
  rcases keptDigits_cases hpos digits with ⟨hlt, hkept⟩ | ⟨head, tail, hdigits, hle, hleast, hkept⟩
  · have hnone : ¬ LosesTie radix digits := by
      rintro ⟨n, -, htie, -⟩
      have hle := htie.le
      have hprefix := ofDigits_take_le hpos digits n
      omega
    simp [hkept, hnone]
  · have htail : ∀ c ∈ tail, digitValue c < radix :=
      fun c hc => hm.digitValue_lt (hd c (by simp [hdigits, hc]))
    have hpow : radix ^ tail.length = twoPow (k * tail.length) := by
      rw [hradix, twoPow_pow]
    have hrest : ofDigits radix tail < twoPow (k * tail.length) := by
      rw [hradix] at htail ⊢
      exact ofDigits_lt_twoPow hk htail
    have hall : ofDigits radix digits =
        ofDigits radix head * twoPow (k * tail.length) + ofDigits radix tail := by
      rw [hdigits, ofDigits_append, hpow]
    rw [losesTie_append_iff hm hd hdigits hle hleast, hkept, hpow, hall, ofNat_append_iff hle hrest]

end Radix

section Literal

variable {radix : Nat} {cs digits : List Char}

theorem RadixText.not_blank (h : RadixText cs radix digits) :
    ∀ c ∈ cs, Text.isBlank c = false := by
  obtain @⟨mark, radix, alphabet, digits, hm, -, hd⟩ := h
  have hmark : Text.isBlank mark = false := by
    cases hm with
    | hexadecimal h | octal h | binary h => rcases h with rfl | rfl <;> decide
  have hdigit : ∀ c ∈ alphabet, Text.isBlank c = false := by
    cases hm <;> simp [Text.isBlank]
  intro c hc
  rcases List.mem_cons.mp hc with rfl | hc
  · decide
  rcases List.mem_cons.mp hc with rfl | hc
  · exact hmark
  · exact hdigit c (hd c hc)

/-- A literal is the number nearest to what is kept of its digits. It is the number nearest to the
integer that all of them denote, unless the first digits are in the middle between two finite
numbers of which the lower one is even, and later digits are not all zero. -/
theorem isRounded_radix_iff {text : String} (h : RadixText text.toList radix digits) :
    IsRounded (keptDigits radix digits) (ofText text) ∧
      (IsRounded (ofDigits radix digits) (ofText text) ↔
        ¬ (ofDigits radix digits < twoPow 1024 ∧ LosesTie radix digits)) := by
  have htrim := trim_of_not_blank h.not_blank
  generalize ht : text.toList = cs at h htrim
  obtain @⟨mark, radix, alphabet, digits, hm, hne, hd⟩ := h
  rw [← ht] at htrim
  rw [isRounded_iff, isRounded_iff, ofText_of_mark hm (htrim.trans ht),
    readRadix_of_digits hm hd hne, ofNat_keptDigits_iff hm hd]
  exact ⟨rfl, Iff.rfl⟩

/-- In the middle between two numbers the even one is taken, if no digit is lost. -/
theorem isRounded_radix_tie :
    RadixText "0x20000000000001".toList 16 "20000000000001".toList ∧
      IsLowTie (ofDigits 16 "20000000000001".toList) ∧
      IsRounded (ofDigits 16 "20000000000001".toList) (ofText "0x20000000000001") := by
  have hdigits : ∀ c ∈ "20000000000001".toList, c ∈ "0123456789abcdefABCDEF".toList := by simp
  have htext : RadixText "0x20000000000001".toList 16 "20000000000001".toList :=
    @RadixText.mk 'x' 16 _ _ (.hexadecimal (.inl rfl)) (by decide) hdigits
  refine ⟨htext, by decide +kernel, ?_⟩
  apply (isRounded_radix_iff htext).2.mpr
  have hkept : ¬ LosesTie 16 "20000000000001".toList := by decide +kernel
  exact fun h => hkept h.2

/-- A digit that is lost behind the middle: the lower number is taken, though the upper one is
nearer. -/
theorem not_isRounded_radix :
    RadixText "0x200000000000011".toList 16 "200000000000011".toList ∧
      ofText "0x200000000000011" = ofNat (twoPow 57) ∧
      ¬ IsRounded (ofDigits 16 "200000000000011".toList) (ofText "0x200000000000011") := by
  have hdigits : ∀ c ∈ "200000000000011".toList, c ∈ "0123456789abcdefABCDEF".toList := by simp
  have htext : RadixText "0x200000000000011".toList 16 "200000000000011".toList :=
    @RadixText.mk 'x' 16 _ _ (.hexadecimal (.inl rfl)) (by decide) hdigits
  refine ⟨htext, by decide +kernel, ?_⟩
  rw [isRounded_iff]
  decide +kernel

end Literal

end SchemaGen.Numeric
